/-
Administrative flags of servers that track each other (server.c).

A server may track another one, also one of another backend.  It inherits
maintenance and drain mode from the server it tracks: `SRV_ADMF_IMAINT` and
`SRV_ADMF_IDRAIN` are set and cleared on the trackers of a server whenever it
enters or completely leaves the mode, and so on down the chains.

The tracking links form a forest, and the two inherited flags are marks on it.
`srvSetAdminFlag` and `srvClrAdminFlag` update the status of each server on
their way; what they do to the flags alone is an incremental update of a mark
(`nextAdmins_setAdminFlag`).
-/
import SmartHAProxy.Lib.Forest
import SmartHAProxy.Lb.Map
import SmartHAProxy.Lb.Recount

namespace SmartHAProxy

universe u

/-! ### Backends of any algorithm -/

/-- `lbprm.algo & BE_LB_LKUP`. -/
inductive Algorithm
  | none
  | map
  | tree (k : Lookup)
  deriving DecidableEq, Repr

namespace Algorithm

def State (ι : Type u) : Algorithm → Type u
  | none => PUnit
  | map => LbMap ι
  | tree k => k.State ι

/-- The callbacks that the algorithm installs. -/
def callbacks {ι : Type u} [DecidableEq ι] : (a : Algorithm) → LbCallbacks ι (a.State ι)
  | none => ⟨Option.none, Option.none, Option.none⟩
  | map => ⟨some mapSetServerStatusDown, some mapSetServerStatusUp, Option.none⟩
  | tree k => k.callbacks

end Algorithm

/-- What the configuration fixes: the backends `κ` with their algorithms, the
backend of each server, and the links `track`, `trackers` and `tracknext`. -/
structure Config (ι κ : Type u) where
  algo : κ → Algorithm
  proxy : ι → κ
  tracking : Forest ι

structure World {ι κ : Type u} (c : Config ι κ) where
  srv : ι → Server
  px : (p : κ) → Proxy ι ((c.algo p).State ι)

variable {ι κ : Type u}

/-! ### Setting and clearing flags -/

namespace SrvAdmin

/-- "Compute the inherited flag to propagate." -/
def inherited (mode : SrvAdmin) : SrvAdmin :=
  if mode.has .maint then .imaint else if mode.has .drain then .idrain else mode

/-- "The equivalent flag was already present (forced or inherited)": the flags
without `mode` have one of the same kind. -/
def hasEquivalent (flags mode : SrvAdmin) : Bool :=
  (mode.has .maint && (flags &&& ~~~mode).has .maint) ||
    (mode.has .drain && (flags &&& ~~~mode).has .drain)

end SrvAdmin

section Flags

variable [DecidableEq ι] [DecidableEq κ] (c : Config ι κ) (now : ℤ)

namespace World

variable {c}

def updSrv (w : World c) (i : ι) (f : Server → Server) : World c :=
  { w with srv := Function.update w.srv i (f (w.srv i)) }

/-- `srv_update_status` of a server, in its backend. -/
def updateStatus (w : World c) (i : ι) : World c :=
  let p := c.proxy i
  let b := srvUpdateStatus (c.algo p).callbacks now c.tracking.parent ⟨w.srv, w.px p⟩ i
  { srv := b.srv, px := Function.update w.px p b.px }

def nextAdmins (w : World c) (i : ι) : SrvAdmin := (w.srv i).nextAdmin

end World

def srvSetAdminFlag [Finite ι] (w : World c) (i : ι) (mode : SrvAdmin) : World c :=
  if mode = 0 then w
  else if (w.srv i).nextAdmin.has mode then w
  else
    let w := w.updSrv i fun s => { s with nextAdmin := s.nextAdmin ||| mode }
    let w := w.updateStatus now i
    if (w.srv i).nextAdmin.hasEquivalent mode then w
    else (c.tracking.children i).foldl (fun w j => srvSetAdminFlag w j mode.inherited) w
termination_by c.tracking.wf.wrap i
decreasing_by exact (c.tracking.mem_children i _).mp ‹_›

def srvClrAdminFlag [Finite ι] (w : World c) (i : ι) (mode : SrvAdmin) : World c :=
  if mode = 0 then w
  else if !(w.srv i).nextAdmin.has mode then w
  else
    let w := w.updSrv i fun s => { s with nextAdmin := s.nextAdmin &&& ~~~mode }
    let w := w.updateStatus now i
    if (mode.has .maint && (w.srv i).nextAdmin.has .maint) ||
        (mode.has .drain && (w.srv i).nextAdmin.has .drain) then w
    else (c.tracking.children i).foldl (fun w j => srvClrAdminFlag w j mode.inherited) w
termination_by c.tracking.wf.wrap i
decreasing_by exact (c.tracking.mem_children i _).mp ‹_›

end Flags

/-! ### Updates of the status leave the pending flags alone -/

section Frame

variable {L : Type*} [DecidableEq ι] {b : Backend ι L} {i : ι}

def Backend.nextAdmins (b : Backend ι L) (i : ι) : SrvAdmin := (b.srv i).nextAdmin

theorem nextAdmins_updSrv {f : Server → Server} (hf : (f (b.srv i)).nextAdmin = (b.srv i).nextAdmin) :
    (b.updSrv i f).nextAdmins = b.nextAdmins := by
  funext j
  by_cases hj : j = i
  · subst hj
    rw [Backend.nextAdmins, Backend.updSrv_srv_self, hf]
    rfl
  · rw [Backend.nextAdmins, Backend.updSrv_srv_of_ne _ _ hj]
    rfl

omit [DecidableEq ι] in
theorem nextAdmins_of_srv {L' : Type*} {b' : Backend ι L'} (h : b'.srv = b.srv) :
    b'.nextAdmins = b.nextAdmins := by
  funext j
  rw [Backend.nextAdmins, h]
  rfl

theorem nextAdmins_commit (b : Backend ι L) (i : ι) : (b.commit i).nextAdmins = b.nextAdmins :=
  nextAdmins_updSrv rfl

/-- A callback that does not touch the pending flags of any server. -/
def KeepsAdmin (f : Backend ι L → ι → Backend ι L) : Prop :=
  ∀ b i, (f b i).nextAdmins = b.nextAdmins

theorem keepsAdmin_setServerStatusDown (a : LbOps ι L) : KeepsAdmin (setServerStatusDown a) := by
  intro b i
  simp only [setServerStatusDown]
  split_ifs
  · rfl
  · exact nextAdmins_commit b i
  · rw [nextAdmins_commit]
    exact nextAdmins_of_srv (updateBackendWeight_srv _)
  · rw [nextAdmins_commit]
    exact nextAdmins_of_srv (updateBackendWeight_srv _)

theorem keepsAdmin_setServerStatusUp (a : LbOps ι L) : KeepsAdmin (setServerStatusUp a) := by
  intro b i
  simp only [setServerStatusUp]
  split_ifs
  · rfl
  · exact nextAdmins_commit b i
  · rw [nextAdmins_commit]
    exact nextAdmins_of_srv (updateBackendWeight_srv _)
  · rw [nextAdmins_commit]
    exact nextAdmins_of_srv (updateBackendWeight_srv _)

theorem keepsAdmin_updateServerWeight (a : LbOps ι L) : KeepsAdmin (updateServerWeight a) := by
  intro b i
  simp only [updateServerWeight]
  split_ifs
  · rfl
  · exact nextAdmins_commit b i
  · exact keepsAdmin_setServerStatusUp a b i
  · exact keepsAdmin_setServerStatusDown a b i
  · rw [nextAdmins_commit]
    exact nextAdmins_of_srv (updateBackendWeight_srv _)

theorem nextAdmins_recalc (b : Backend ι (LbMap ι)) :
    (recalcServerMap (updateBackendWeight (recountServers b))).nextAdmins = b.nextAdmins := by
  have hmap (b : Backend ι (LbMap ι)) : (recalcServerMap b).srv = b.srv := by
    unfold recalcServerMap
    split_ifs <;> rfl
  funext j
  rw [nextAdmins_of_srv (hmap _), nextAdmins_of_srv (updateBackendWeight_srv _),
    Backend.nextAdmins, (onlyCounts_recountServers b).srv j]
  rfl

theorem keepsAdmin_mapSetServerStatusDown : KeepsAdmin (mapSetServerStatusDown (ι := ι)) := by
  intro b i
  unfold mapSetServerStatusDown
  split_ifs
  · rfl
  · exact nextAdmins_commit b i
  · rw [nextAdmins_commit, nextAdmins_recalc]

theorem keepsAdmin_mapSetServerStatusUp : KeepsAdmin (mapSetServerStatusUp (ι := ι)) := by
  intro b i
  unfold mapSetServerStatusUp
  split_ifs
  · rfl
  · exact nextAdmins_commit b i
  · rw [nextAdmins_commit, nextAdmins_recalc]

/-- Callbacks that do not touch the pending flags. -/
structure LbCallbacks.KeepAdmin (cb : LbCallbacks ι L) : Prop where
  down : ∀ f ∈ cb.setServerStatusDown, KeepsAdmin f
  up : ∀ f ∈ cb.setServerStatusUp, KeepsAdmin f
  eweight : ∀ f ∈ cb.updateServerEweight, KeepsAdmin f

theorem Algorithm.keepAdmin (a : Algorithm) :
    (a.callbacks : LbCallbacks ι (a.State ι)).KeepAdmin := by
  cases a with
  | none => exact ⟨by simp [callbacks], by simp [callbacks], by simp [callbacks]⟩
  | map =>
    refine ⟨?_, ?_, by simp [callbacks]⟩
    · rintro f ⟨⟩
      exact keepsAdmin_mapSetServerStatusDown
    · rintro f ⟨⟩
      exact keepsAdmin_mapSetServerStatusUp
  | tree k =>
    rw [callbacks, k.callbacks_eq]
    refine ⟨?_, ?_, ?_⟩
    · rintro f ⟨⟩
      exact keepsAdmin_setServerStatusDown _
    · rintro f ⟨⟩
      exact keepsAdmin_setServerStatusUp _
    · rintro f ⟨⟩
      exact keepsAdmin_updateServerWeight _

variable {cb : LbCallbacks ι L} (hcb : cb.KeepAdmin)

omit [DecidableEq ι] in
theorem nextAdmins_callback {f : Option (Backend ι L → ι → Backend ι L)}
    (hf : ∀ g ∈ f, KeepsAdmin g) (b : Backend ι L) (i : ι) :
    (callback f b i).nextAdmins = b.nextAdmins := by
  cases f with
  | none => rfl
  | some g => exact hf g rfl b i

omit [DecidableEq ι] in
include hcb in
theorem nextAdmins_propagateStatus (b : Backend ι L) (i : ι) :
    (propagateStatus cb b i).nextAdmins = b.nextAdmins := by
  unfold propagateStatus
  split
  · rename_i f he
    exact hcb.eweight f he b i
  · split_ifs
    · exact nextAdmins_callback hcb.up b i
    · exact nextAdmins_callback hcb.down b i

theorem nextAdmins_recalcEweight (now : ℤ) (b : Backend ι L) (i : ι) :
    (serverRecalcEweight now b i).nextAdmins = b.nextAdmins :=
  nextAdmins_updSrv rfl

omit [DecidableEq ι] in
theorem checkBackendChange_srv (now prev : ℤ) (b : Backend ι L) :
    (checkBackendChange now prev b).srv = b.srv := by
  unfold checkBackendChange
  split_ifs <;> rfl

omit [DecidableEq ι] in
@[simp] theorem nextAdmins_checkBackendDown (now prev : ℤ) (b : Backend ι L) :
    (checkBackendDown now prev b).nextAdmins = b.nextAdmins :=
  nextAdmins_of_srv (checkBackendDown_srv now prev b)

omit [DecidableEq ι] in
@[simp] theorem nextAdmins_endBackendDown (now : ℤ) (b : Backend ι L) :
    (endBackendDown now b).nextAdmins = b.nextAdmins :=
  nextAdmins_of_srv (endBackendDown_srv now b)

include hcb in
theorem nextAdmins_applyState (now prev : ℤ) (b : Backend ι L) (i : ι) :
    (applyState cb now prev b i).nextAdmins = b.nextAdmins := by
  simp only [applyState]
  split_ifs
  · rw [nextAdmins_updSrv rfl, nextAdmins_checkBackendDown, nextAdmins_callback hcb.down,
      nextAdmins_updSrv rfl]
  · rw [nextAdmins_checkBackendDown, nextAdmins_callback hcb.down, nextAdmins_updSrv rfl]
  · rw [nextAdmins_checkBackendDown, nextAdmins_propagateStatus hcb, nextAdmins_recalcEweight,
      nextAdmins_updSrv rfl, nextAdmins_endBackendDown]
  · rw [nextAdmins_checkBackendDown, nextAdmins_propagateStatus hcb]
  · rfl

include hcb in
theorem nextAdmins_applyPending (now prev : ℤ) (b : Backend ι L) (i : ι) :
    (applyPending cb now prev b i).nextAdmins = b.nextAdmins := by
  simp only [applyPending]
  split_ifs
  · rfl
  · funext j
    by_cases hj : j = i
    · subst hj
      rw [Backend.nextAdmins, Backend.updSrv_srv_self]
      rfl
    · have hstate := congrFun (nextAdmins_applyState hcb now prev
        (b.updSrv i fun s => { s with nextAdmin := s.curAdmin }) i) j
      rw [Backend.nextAdmins, Backend.updSrv_srv_of_ne _ _ hj]
      rw [Backend.nextAdmins, Backend.nextAdmins, Backend.updSrv_srv_of_ne _ _ hj] at hstate
      exact hstate

include hcb in
theorem nextAdmins_enterMaint (now prev : ℤ) (b : Backend ι L) (i : ι) :
    (enterMaint cb now prev b i).nextAdmins = b.nextAdmins := by
  simp only [enterMaint]
  split_ifs
  · rw [nextAdmins_updSrv rfl, nextAdmins_updSrv rfl]
  · rw [nextAdmins_updSrv rfl, nextAdmins_checkBackendDown, nextAdmins_callback hcb.down,
      nextAdmins_updSrv rfl, nextAdmins_updSrv rfl]

include hcb in
theorem nextAdmins_leaveMaint (now : ℤ) (track : ι → Option ι) (prev : ℤ) (b : Backend ι L) (i : ι) :
    (leaveMaint cb now track prev b i).nextAdmins = b.nextAdmins := by
  rw [leaveMaint, nextAdmins_of_srv (checkBackendChange_srv now prev _),
    nextAdmins_propagateStatus hcb, nextAdmins_recalcEweight]
  exact (nextAdmins_updSrv rfl).trans (nextAdmins_updSrv rfl)

include hcb in
theorem nextAdmins_applyMaint (now : ℤ) (track : ι → Option ι) (prev : ℤ) (b : Backend ι L) (i : ι) :
    (applyMaint cb now track prev b i).nextAdmins = b.nextAdmins := by
  simp only [applyMaint]
  split_ifs
  · exact nextAdmins_enterMaint hcb now prev b i
  · exact nextAdmins_leaveMaint hcb now track prev b i
  · exact nextAdmins_updSrv rfl
  · rfl

include hcb in
theorem nextAdmins_applyDrain (now prev : ℤ) (b : Backend ι L) (i : ι) :
    (applyDrain cb now prev b i).nextAdmins = b.nextAdmins := by
  simp only [applyDrain]
  split_ifs
  · rfl
  · rw [nextAdmins_checkBackendDown, nextAdmins_callback hcb.down, nextAdmins_updSrv rfl]
  · rw [nextAdmins_propagateStatus hcb, nextAdmins_recalcEweight, nextAdmins_updSrv rfl,
      nextAdmins_endBackendDown]
  · exact nextAdmins_updSrv rfl
  · rfl

include hcb in
theorem nextAdmins_srvUpdateStatus (now : ℤ) (track : ι → Option ι) (b : Backend ι L) (i : ι) :
    (srvUpdateStatus cb now track b i).nextAdmins = b.nextAdmins := by
  simp only [srvUpdateStatus]
  rw [nextAdmins_applyDrain hcb, nextAdmins_applyMaint hcb, nextAdmins_applyPending hcb]

end Frame

/-! ### The flags as marks on the forest -/

inductive AdminKind
  | maint
  | drain
  deriving DecidableEq, Repr

namespace AdminKind

def mask : AdminKind → SrvAdmin
  | maint => .maint
  | drain => .drain

def flag : AdminKind → SrvAdmin
  | maint => .imaint
  | drain => .idrain

/-- The flags of the kind that are set and cleared from outside. -/
def forced : AdminKind → List SrvAdmin
  | maint => [.fmaint, .rmaint]
  | drain => [.fdrain]

end AdminKind

def SrvAdmin.assign (flags : SrvAdmin) (v : Bool) (mode : SrvAdmin) : SrvAdmin :=
  if v then flags ||| mode else flags &&& ~~~mode

/-! The bits of the flags. -/

namespace SrvAdmin

variable {a m mask : SrvAdmin}

theorem or_and (a m mask : SrvAdmin) : (a ||| m) &&& mask = a &&& mask ||| m &&& mask := by
  apply UInt8.toBitVec_inj.1
  ext i
  simp [Bool.and_or_distrib_right]

theorem and_or_and_not (a m : SrvAdmin) : m &&& a ||| ~~~m &&& a = a := by
  rw [← or_and, UInt8.or_not_self, UInt8.neg_one_and]

theorem has_eq_false : a.has mask = false ↔ a &&& mask = 0 := by
  simp [has]

theorem not_and_of_disjoint (h : m &&& mask = 0) : ~~~m &&& mask = mask := by
  have hparts := and_or_and_not mask m
  rwa [h, UInt8.zero_or] at hparts

theorem has_or (a m mask : SrvAdmin) : (a ||| m).has mask = (a.has mask || m.has mask) := by
  rw [Bool.eq_iff_iff]
  simp only [has, or_and, bne_iff_ne, ne_eq, UInt8.or_eq_zero_iff, not_and_or, Bool.or_eq_true]

theorem has_mono (h : mask &&& m = m) (ha : a.has m = true) : a.has mask = true := by
  by_contra hmask
  rw [Bool.not_eq_true, has_eq_false] at hmask
  rw [has, ← h, ← UInt8.and_assoc, hmask, UInt8.zero_and] at ha
  cases ha

theorem has_assign_of_disjoint (h : m &&& mask = 0) (v : Bool) (a : SrvAdmin) :
    (a.assign v m).has mask = a.has mask := by
  cases v with
  | true =>
    show (a ||| m).has mask = _
    rw [has_or, has_eq_false.2 h, Bool.or_false]
  | false =>
    show (a &&& ~~~m).has mask = _
    rw [has, has, UInt8.and_assoc, not_and_of_disjoint h]

theorem has_assign_true (h : m.has mask = true) (a : SrvAdmin) :
    (a.assign true m).has mask = true := by
  show (a ||| m).has mask = true
  rw [has_or, h, Bool.or_true]

theorem has_of_assign_false (h : (a.assign false m).has mask = true) : a.has mask = true := by
  by_contra hmask
  rw [Bool.not_eq_true, has_eq_false] at hmask
  change (a &&& ~~~m).has mask = true at h
  rw [has, UInt8.and_assoc, UInt8.and_comm (~~~m), ← UInt8.and_assoc, hmask, UInt8.zero_and] at h
  cases h

theorem has_assign_self (h : m.has m = true) (v : Bool) (a : SrvAdmin) :
    (a.assign v m).has m = v := by
  cases v with
  | true => exact has_assign_true h a
  | false =>
    show (a &&& ~~~m).has m = false
    rw [has_eq_false, UInt8.and_assoc, UInt8.not_and_self, UInt8.and_zero]

theorem assign_true_and_not (h : a &&& m = 0) : a.assign true m &&& ~~~m = a := by
  show (a ||| m) &&& ~~~m = a
  rw [or_and, UInt8.and_not_self, UInt8.or_zero, UInt8.and_comm]
  exact not_and_of_disjoint ((UInt8.and_comm m a).trans h)

end SrvAdmin

/-! The flags of one kind. -/

namespace AdminKind

variable {k : AdminKind} {mode : SrvAdmin} (h : mode ∈ k.flag :: k.forced)

include h

theorem mode_ne_zero : mode ≠ 0 := by
  have hall : (k.flag :: k.forced).all (· ≠ 0) = true := by cases k <;> decide
  exact of_decide_eq_true (List.all_eq_true.mp hall mode h)

theorem inherited_mode : mode.inherited = k.flag := by
  have hall : (k.flag :: k.forced).all (·.inherited = k.flag) = true := by cases k <;> decide
  exact of_decide_eq_true (List.all_eq_true.mp hall mode h)

theorem mask_and_mode : k.mask &&& mode = mode := by
  have hall : (k.flag :: k.forced).all (fun m => k.mask &&& m = m) = true := by
    cases k <;> decide
  exact of_decide_eq_true (List.all_eq_true.mp hall mode h)

theorem mode_has_mask (k' : AdminKind) : mode.has k'.mask = decide (k' = k) := by
  have hall : (k.flag :: k.forced).all (·.has k'.mask = decide (k' = k)) = true := by
    cases k <;> cases k' <;> decide
  exact of_decide_eq_true (List.all_eq_true.mp hall mode h)

theorem own_set (a : SrvAdmin) : (a.assign true mode).has k.mask = true :=
  SrvAdmin.has_assign_true ((mode_has_mask h k).trans (decide_eq_true rfl)) a

theorem own_of_mode (a : SrvAdmin) (ha : a.has mode = true) : a.has k.mask = true :=
  SrvAdmin.has_mono (mask_and_mode h) ha

theorem own_eq (a : SrvAdmin) :
    ((mode.has .maint && a.has .maint) || (mode.has .drain && a.has .drain)) = a.has k.mask := by
  have hmaint : mode.has .maint = decide (maint = k) := mode_has_mask h maint
  have hdrain : mode.has .drain = decide (drain = k) := mode_has_mask h drain
  rw [hmaint, hdrain]
  cases k
  · exact Bool.or_false _
  · rfl

theorem hasEquivalent_set (a : SrvAdmin) (ha : a.has mode = false) :
    (a.assign true mode).hasEquivalent mode = a.has k.mask := by
  rw [SrvAdmin.hasEquivalent, SrvAdmin.assign_true_and_not (SrvAdmin.has_eq_false.1 ha)]
  exact own_eq h a

theorem other_kind {k' : AdminKind} (hk : k' ≠ k) (v : Bool) (a : SrvAdmin) :
    ((a.assign v mode).has k'.mask, (a.assign v mode).has k'.flag)
      = (a.has k'.mask, a.has k'.flag) := by
  have hmask : mode &&& k'.mask = 0 :=
    SrvAdmin.has_eq_false.1 ((mode_has_mask h k').trans (decide_eq_false hk))
  have hflag : mode &&& k'.flag = 0 := by
    rw [← mask_and_mode (k := k') List.mem_cons_self, ← UInt8.and_assoc, hmask, UInt8.zero_and]
  rw [SrvAdmin.has_assign_of_disjoint hmask, SrvAdmin.has_assign_of_disjoint hflag]

omit h in
theorem flag_assign_forced (h : mode ∈ k.forced) (v : Bool) (a : SrvAdmin) :
    (a.assign v mode).has k.flag = a.has k.flag := by
  have hall : k.forced.all (fun m => m &&& k.flag = 0) = true := by cases k <;> decide
  exact SrvAdmin.has_assign_of_disjoint
    (of_decide_eq_true (List.all_eq_true.mp hall mode h)) v a

omit h in
theorem flag_assign_flag (k : AdminKind) (v : Bool) (a : SrvAdmin) :
    (a.assign v k.flag).has k.flag = v :=
  SrvAdmin.has_assign_self (by cases k <;> decide) v a

omit h in
theorem own_assign_flag (k : AdminKind) (v : Bool) (a : SrvAdmin) :
    (a.assign v k.flag).has k.mask = a.has k.mask ∨ (a.assign v k.flag).has k.mask = v := by
  cases v with
  | true => exact .inr (own_set List.mem_cons_self a)
  | false =>
    cases hclear : (a.assign false k.flag).has k.mask with
    | true => exact .inl (SrvAdmin.has_of_assign_false hclear).symm
    | false => exact .inr rfl

/-- The mark that servers inherit from the server they track. -/
def mark (k : AdminKind) : Mark SrvAdmin where
  own a := a.has k.mask
  inh a := a.has k.flag
  put v a := a.assign v k.flag
  inh_put := k.flag_assign_flag
  own_put := k.own_assign_flag

end AdminKind

/-! ### What the functions do to the flags -/

section Refinement

variable [DecidableEq ι] [DecidableEq κ] {c : Config ι κ} {now : ℤ}

theorem World.nextAdmins_updateStatus (w : World c) (i : ι) :
    (w.updateStatus now i).nextAdmins = w.nextAdmins :=
  nextAdmins_srvUpdateStatus (c.algo (c.proxy i)).keepAdmin now c.tracking.parent
    ⟨w.srv, w.px (c.proxy i)⟩ i

theorem World.nextAdmins_assign (now : ℤ) (w : World c) (i : ι) (v : Bool) (mode : SrvAdmin) :
    ((w.updSrv i fun s => { s with nextAdmin := s.nextAdmin.assign v mode }).updateStatus now
      i).nextAdmins = Function.update w.nextAdmins i ((w.nextAdmins i).assign v mode) := by
  rw [World.nextAdmins_updateStatus]
  funext j
  by_cases hj : j = i
  · subst hj
    simp [World.nextAdmins, World.updSrv]
  · simp [World.nextAdmins, World.updSrv, hj]

omit [DecidableEq ι] [DecidableEq κ] in
theorem World.nextAdmins_foldl {f : World c → ι → World c}
    {g : (ι → SrvAdmin) → ι → ι → SrvAdmin} {l : List ι}
    (h : ∀ j ∈ l, ∀ w, (f w j).nextAdmins = g w.nextAdmins j) (w : World c) :
    (l.foldl f w).nextAdmins = l.foldl g w.nextAdmins := by
  induction l generalizing w with
  | nil => rfl
  | cons j l ih =>
    rw [List.foldl_cons, List.foldl_cons, ← h j List.mem_cons_self,
      ih fun j hj => h j (List.mem_cons_of_mem _ hj)]

variable [Finite ι] {k : AdminKind} {mode : SrvAdmin}

omit [DecidableEq κ] in
theorem nextAdmins_tell {v : Bool} {w w' : World c} {i : ι} (stop : SrvAdmin → Bool)
    {f : World c → ι → World c}
    (hw' : w'.nextAdmins = Function.update w.nextAdmins i ((w.nextAdmins i).assign v mode))
    (hstop : stop ((w.nextAdmins i).assign v mode) = true ↔
      ((w.nextAdmins i).assign v mode).has k.mask = (w.nextAdmins i).has k.mask)
    (hv : ((w.nextAdmins i).assign v mode).has k.mask = (w.nextAdmins i).has k.mask ∨
      ((w.nextAdmins i).assign v mode).has k.mask = v)
    (hf : ∀ j ∈ c.tracking.children i, ∀ w, (f w j).nextAdmins
      = c.tracking.spread k.mark v w.nextAdmins j) :
    (if stop (w'.srv i).nextAdmin = true then w'
      else (c.tracking.children i).foldl f w').nextAdmins
      = c.tracking.write k.mark w.nextAdmins i ((w.nextAdmins i).assign v mode) := by
  have hi : (w'.srv i).nextAdmin = (w.nextAdmins i).assign v mode := by
    have h := congrFun hw' i
    rwa [Function.update_self] at h
  rw [Forest.write, hi]
  by_cases hsame : ((w.nextAdmins i).assign v mode).has k.mask = (w.nextAdmins i).has k.mask
  · rw [if_pos (hstop.mpr hsame), if_pos (by exact hsame), hw']
  · have hown : k.mark.own ((w.nextAdmins i).assign v mode) = v := hv.resolve_left hsame
    rw [if_neg (mt hstop.mp hsame), if_neg (by exact hsame), hown, World.nextAdmins_foldl hf, hw']

/-- **Setting a flag** replaces the flags of one server and tells its trackers. -/
theorem nextAdmins_setAdminFlag (now : ℤ) (hmode : mode ∈ k.flag :: k.forced) (w : World c)
    (i : ι) :
    (srvSetAdminFlag c now w i mode).nextAdmins
      = if (w.nextAdmins i).has mode = true then w.nextAdmins
        else c.tracking.write k.mark w.nextAdmins i ((w.nextAdmins i).assign true mode) := by
  induction i using c.tracking.wf.induction generalizing w mode with
  | _ i ih =>
    rw [srvSetAdminFlag, if_neg (AdminKind.mode_ne_zero hmode)]
    rcases hhas : (w.srv i).nextAdmin.has mode with - | -
    · have hhas' : (w.nextAdmins i).has mode = false := hhas
      have hown := AdminKind.own_set hmode (w.nextAdmins i)
      rw [hhas', if_neg Bool.false_ne_true, if_neg Bool.false_ne_true]
      refine nextAdmins_tell (fun a => a.hasEquivalent mode) (w.nextAdmins_assign now i true mode)
        ?_ (Or.inr hown) fun j hj w => ?_
      · rw [hown, AdminKind.hasEquivalent_set hmode _ hhas']
        exact eq_comm
      · rw [AdminKind.inherited_mode hmode,
          ih j ((c.tracking.mem_children i j).mp hj) List.mem_cons_self, Forest.spread_eq_write]
        rfl
    · rw [if_pos rfl, if_pos (show (w.nextAdmins i).has mode = true from hhas)]

/-- **Clearing a flag** does the same. -/
theorem nextAdmins_clrAdminFlag (now : ℤ) (hmode : mode ∈ k.flag :: k.forced) (w : World c)
    (i : ι) :
    (srvClrAdminFlag c now w i mode).nextAdmins
      = if (w.nextAdmins i).has mode = false then w.nextAdmins
        else c.tracking.write k.mark w.nextAdmins i ((w.nextAdmins i).assign false mode) := by
  induction i using c.tracking.wf.induction generalizing w mode with
  | _ i ih =>
    rw [srvClrAdminFlag, if_neg (AdminKind.mode_ne_zero hmode)]
    rcases hhas : (w.srv i).nextAdmin.has mode with - | -
    · rw [if_pos (by decide : (!false) = true), if_pos (show (w.nextAdmins i).has mode = false from hhas)]
    · have hhas' : (w.nextAdmins i).has mode = true := hhas
      have hown := AdminKind.own_of_mode hmode (w.nextAdmins i) hhas'
      rw [hhas', if_neg (by decide : ¬(!true) = true), if_neg (by decide : ¬true = false)]
      refine nextAdmins_tell
        (fun a => (mode.has .maint && a.has .maint) || (mode.has .drain && a.has .drain))
        (w.nextAdmins_assign now i false mode) ?_ ?_ fun j hj w => ?_
      · rw [hown, AdminKind.own_eq hmode]
      · rw [hown]
        exact (Bool.eq_false_or_eq_true _)
      · rw [AdminKind.inherited_mode hmode,
          ih j ((c.tracking.mem_children i j).mp hj) List.mem_cons_self, Forest.spread_eq_write]
        rfl

end Refinement

/-! ### Runs -/

/-- The modes that are forced from outside. -/
inductive ForcedMode
  | fmaint
  | rmaint
  | fdrain
  deriving DecidableEq, Repr

def ForcedMode.flag : ForcedMode → SrvAdmin
  | fmaint => .fmaint
  | rmaint => .rmaint
  | fdrain => .fdrain

/-- A call of `srv_set_admin_flag` or `srv_clr_admin_flag`, at date `now`. -/
structure AdminCall (ι : Type u) where
  set : Bool
  server : ι
  mode : ForcedMode
  now : ℤ

section Runs

variable [DecidableEq ι] [DecidableEq κ] [Finite ι] {c : Config ι κ}

def AdminCall.run (c : Config ι κ) (w : World c) (call : AdminCall ι) : World c :=
  if call.set then srvSetAdminFlag c call.now w call.server call.mode.flag
  else srvClrAdminFlag c call.now w call.server call.mode.flag

/-- Every tracking server has inherited maintenance and drain mode from the
server it tracks, and has not inherited them without a reason. -/
def Inherits (w : World c) : Prop :=
  ∀ j i, c.tracking.parent j = some i →
    ((w.srv j).nextAdmin.has .imaint = true ↔ (w.srv i).nextAdmin.has .maint = true) ∧
      ((w.srv j).nextAdmin.has .idrain = true ↔ (w.srv i).nextAdmin.has .drain = true)

omit [DecidableEq ι] [DecidableEq κ] [Finite ι] in
theorem inherits_iff {w : World c} :
    Inherits w ↔ ∀ k : AdminKind, c.tracking.Consistent k.mark w.nextAdmins := by
  constructor
  · rintro h (- | -) j i hj
    · exact Bool.eq_iff_iff.mpr (h j i hj).1
    · exact Bool.eq_iff_iff.mpr (h j i hj).2
  · intro h j i hj
    exact ⟨Bool.eq_iff_iff.mp (h .maint j i hj), Bool.eq_iff_iff.mp (h .drain j i hj)⟩

theorem ForcedMode.mem_forced (m : ForcedMode) : ∃ k : AdminKind, m.flag ∈ k.forced := by
  cases m with
  | fmaint => exact ⟨.maint, by decide⟩
  | rmaint => exact ⟨.maint, by decide⟩
  | fdrain => exact ⟨.drain, by decide⟩

omit [DecidableEq κ] in
theorem consistent_assign {s : ι → SrvAdmin} {k : AdminKind} {mode : SrvAdmin}
    (hmode : mode ∈ k.forced) (h : ∀ k : AdminKind, c.tracking.Consistent k.mark s) (i : ι)
    (v : Bool) (k' : AdminKind) :
    c.tracking.Consistent k'.mark (c.tracking.write k.mark s i ((s i).assign v mode)) := by
  by_cases hk : k' = k
  · subst hk
    exact Forest.consistent_write (h k') (AdminKind.flag_assign_forced hmode v (s i))
  · -- the marks of the other kind are framed away
    have hframe := Forest.write_frame (t := c.tracking) (m := k.mark) (s := s) (i := i)
      (fun a => (a.has k'.mask, a.has k'.flag))
      (fun v a => AdminKind.other_kind List.mem_cons_self hk v a)
      (AdminKind.other_kind (List.mem_cons_of_mem _ hmode) hk v (s i))
    intro j i' hj
    obtain ⟨-, hflag⟩ := Prod.mk.inj (hframe j)
    obtain ⟨hmask, -⟩ := Prod.mk.inj (hframe i')
    exact hflag.trans ((h k' j i' hj).trans hmask.symm)

theorem Inherits.run {w : World c} (h : Inherits w) (call : AdminCall ι) :
    Inherits (call.run c w) := by
  obtain ⟨k, hk⟩ := call.mode.mem_forced
  have hmode := List.mem_cons_of_mem k.flag hk
  rw [inherits_iff] at h ⊢
  unfold AdminCall.run
  split_ifs
  · rw [nextAdmins_setAdminFlag call.now hmode]
    split_ifs
    · exact h
    · exact consistent_assign hk h call.server true
  · rw [nextAdmins_clrAdminFlag call.now hmode]
    split_ifs
    · exact h
    · exact consistent_assign hk h call.server false

/-- **Inherited flags are right after any sequence of calls**, if they were
right before. -/
theorem inherits_of_calls {w : World c} (h : Inherits w) (calls : List (AdminCall ι)) :
    Inherits (calls.foldl (AdminCall.run c) w) := by
  induction calls generalizing w with
  | nil => exact h
  | cons call calls ih => exact ih (h.run call)

end Runs

/-- Server 2 tracks server 1, which tracks server 0. -/
def chainParent : Fin 3 → Option (Fin 3)
  | 0 => none
  | 1 => some 0
  | 2 => some 1

theorem chainParent_lt : ∀ j k, chainParent j = some k → k < j := by decide

def chain : Forest (Fin 3) where
  parent := chainParent
  children
    | 0 => [1]
    | 1 => [2]
    | 2 => []
  mem_children := by decide
  acyclic := by
    have hlt {j k : Fin 3} (h : Relation.TransGen (fun j k => chainParent j = some k) j k) :
        k < j := by
      induction h with
      | single h => exact chainParent_lt _ _ h
      | tail _ h ih => exact lt_trans (chainParent_lt _ _ h) ih
    exact fun i h => lt_irrefl i (hlt h)

/-- One backend with three servers in a chain. -/
def chainConfig : Config (Fin 3) Unit where
  algo _ := .tree .lctree
  proxy _ := ()
  tracking := chain

def chainStart : Backend (Fin 3) (LbTrees (Fin 3)) :=
  fwlcInitServerTree ⟨fun _ => serverS1, newProxy [0, 1, 2] (by decide)⟩

def chainWorld : World chainConfig where
  srv := chainStart.srv
  px _ := chainStart.px

theorem inherits_of_calls_chain :
    Inherits chainWorld ∧
      Inherits ([⟨true, 0, .fmaint, 1⟩, ⟨true, 1, .fmaint, 2⟩, ⟨false, 0, .fmaint, 3⟩].foldl
        (AdminCall.run chainConfig) chainWorld) := by
  have hstart : Inherits chainWorld := by
    unfold Inherits
    decide
  exact ⟨hstart, inherits_of_calls hstart _⟩

end SmartHAProxy
