/-
What changes of status and weight preserve, whatever the algorithm.

An invariant of an algorithm relates its data to the servers: to the values
that are committed and to fields which changes of status never touch.  It
survives such changes when it survives the three things an algorithm does on
its own (`LbOps.Keeps`); the control flow of the callbacks and of
`srv_update_status` is followed here, once for all algorithms.

Main results: `OpsStep.keeps` and `OpsStep.moves`.
-/
import SmartHAProxy.Lb.Recount

namespace SmartHAProxy

universe u

/-! ### What a change of status leaves alone -/

/-- The fields of a server that changes of status and weight do not write. -/
structure Server.Rest where
  backup : Bool
  puid : UInt32
  uweight : UInt32
  cumulativeWeight : UInt32
  served : UInt32
  queueLength : UInt32

/-- The fields of a server that changes of status and weight do not write. -/
def Server.rest (s : Server) : Server.Rest where
  backup := s.backup
  puid := s.puid
  uweight := s.uweight
  cumulativeWeight := s.cumulativeWeight
  served := s.served
  queueLength := s.queueLength

theorem Server.curStanding_of_not_usable {s : Server} (h : s.currentlyUsable = false) :
    s.curStanding = none := by
  rw [curStanding, h]
  rfl

theorem Server.curStanding_of_usable {s : Server} (h : s.currentlyUsable = true) :
    s.curStanding = some (s.backup, s.curEweight) := by
  rw [curStanding, h]
  rfl

theorem Server.nextStanding_of_not_usable {s : Server} (h : s.willbeUsable = false) :
    s.nextStanding = none := by
  rw [nextStanding, h]
  rfl

theorem Server.nextStanding_of_usable {s : Server} (h : s.willbeUsable = true) :
    s.nextStanding = some (s.backup, s.nextEweight) := by
  rw [nextStanding, h]
  rfl

theorem Server.eweight_ne_zero_of_usableWith {w : UInt32} {admin : SrvAdmin} {state : SrvState}
    (h : Server.usableWith w admin state = true) : w ≠ 0 := by
  rintro rfl
  cases h

theorem currentlyUsable_of_standing {s s' : Server} (h : s'.curStanding = s.curStanding)
    (hs : s.currentlyUsable = true) :
    s'.currentlyUsable = true ∧ s'.curEweight = s.curEweight := by
  rw [Server.curStanding_of_usable hs] at h
  rcases hs' : s'.currentlyUsable with - | -
  · rw [Server.curStanding_of_not_usable hs'] at h
    cases h
  · rw [Server.curStanding_of_usable hs'] at h
    exact ⟨rfl, congrArg Prod.snd (Option.some.inj h)⟩

/-! The plain accounting leaves the data of the algorithm alone. -/

section Weights

variable {ι L : Type*} (px : Proxy ι L) (s : Server)

@[simp] theorem Proxy.subWeight_lb : (px.subWeight s).lb = px.lb := by
  unfold subWeight
  split <;> rfl

@[simp] theorem Proxy.addWeight_lb : (px.addWeight s).lb = px.lb := by
  unfold addWeight
  split <;> rfl

@[simp] theorem Proxy.chgWeight_lb : (px.chgWeight s).lb = px.lb := by
  unfold chgWeight
  split <;> rfl

end Weights

variable {ι : Type u} {L : Type*} [DecidableEq ι]

/-! ### What a callback does to the servers -/

section Servers

variable (a : LbOps ι L) (b : Backend ι L) (i : ι)

theorem Server.lbCommitStatus_of_not_changed {s : Server} (h : s.lbStatusChanged = false) :
    s.lbCommitStatus = s := by
  obtain ⟨hstate, hadmin, hweight⟩ := Server.committed_of_not_changed h
  cases s
  cases hstate
  cases hadmin
  cases hweight
  rfl

theorem srv_setServerStatusDown : (setServerStatusDown a b i).srv =
    Function.update b.srv i (b.srv i).lbCommitStatus := by
  unfold setServerStatusDown
  dsimp only
  split_ifs with hch
  · rw [Server.lbCommitStatus_of_not_changed (by simpa using hch), Function.update_eq_self]
  · rfl
  · rw [Backend.commit, Backend.updSrv, updateBackendWeight_srv]
  · rw [Backend.commit, Backend.updSrv, updateBackendWeight_srv]
    rfl

theorem srv_setServerStatusUp : (setServerStatusUp a b i).srv =
    Function.update b.srv i (b.srv i).lbCommitStatus := by
  unfold setServerStatusUp
  dsimp only
  split_ifs with hch
  · rw [Server.lbCommitStatus_of_not_changed (by simpa using hch), Function.update_eq_self]
  · rfl
  · rw [Backend.commit, Backend.updSrv, updateBackendWeight_srv]
  · rw [Backend.commit, Backend.updSrv, updateBackendWeight_srv]
    rfl

/-- **The server is committed**, and no other one changes. -/
theorem srv_updateServerWeight : (updateServerWeight a b i).srv =
    Function.update b.srv i (b.srv i).lbCommitStatus := by
  unfold updateServerWeight
  dsimp only
  split_ifs with hch
  · rw [Server.lbCommitStatus_of_not_changed (by simpa using hch), Function.update_eq_self]
  · rfl
  · exact srv_setServerStatusUp a b i
  · exact srv_setServerStatusDown a b i
  · rw [Backend.commit, Backend.updSrv, updateBackendWeight_srv]
    rfl

end Servers

/-! ### Invariants -/

/-- `P`, about the servers and the data of the algorithm, survives changes of
status and weight of server `i`. -/
structure LbOps.Keeps (a : LbOps ι L) (i : ι) (P : (ι → Server) → L → Prop) : Prop where
  subWeight_srvs : ∀ px s, (a.subWeight px s).srvs = px.srvs
  addWeight_srvs : ∀ px s, (a.addWeight px s).srvs = px.srvs
  chgWeight_srvs : ∀ px s, (a.chgWeight px s).srvs = px.srvs
  /-- the committed standing of the server stays -/
  server : ∀ {srv lb} (s : Server), P srv lb → s.rest = (srv i).rest →
    s.curStanding = (srv i).curStanding → P (Function.update srv i s) lb
  /-- the server goes down -/
  unlink : ∀ {b : Backend ι L} (px : Proxy ι L), P b.srv b.px.lb →
    px.lb = (a.subWeight b.px (b.srv i)).lb →
    (b.srv i).currentlyUsable = true → (b.srv i).willbeUsable = false →
    P (Function.update b.srv i (b.srv i).lbCommitStatus) (a.unlink ⟨b.srv, px⟩ i)
  /-- the server comes up -/
  link : ∀ {b : Backend ι L} (px : Proxy ι L), P b.srv b.px.lb →
    px.lb = (a.addWeight b.px (b.srv i)).lb →
    (b.srv i).currentlyUsable = false → (b.srv i).willbeUsable = true →
    P (Function.update b.srv i (b.srv i).lbCommitStatus) (a.link ⟨b.srv, px⟩ i)
  /-- the weight of the server changes -/
  relink : ∀ {b : Backend ι L} (px : Proxy ι L), P b.srv b.px.lb →
    px.lb = (a.chgWeight b.px (b.srv i)).lb →
    (b.srv i).currentlyUsable = true → (b.srv i).willbeUsable = true →
    P (Function.update b.srv i (b.srv i).lbCommitStatus) (a.relink ⟨b.srv, px⟩ i)

/-- The invariant holds of a backend with the list of servers `l`. -/
def Backend.Meets (l : List ι) (P : (ι → Server) → L → Prop) (b : Backend ι L) : Prop :=
  b.px.srvs = l ∧ P b.srv b.px.lb

section Callbacks

variable {a : LbOps ι L} {l : List ι} {P : (ι → Server) → L → Prop} {b : Backend ι L} {i : ι}

namespace LbOps.Keeps

theorem updSrv (hk : a.Keeps i P) (h : b.Meets l P) {f : Server → Server}
    (hrest : (f (b.srv i)).rest = (b.srv i).rest)
    (hstanding : (f (b.srv i)).curStanding = (b.srv i).curStanding) :
    (b.updSrv i f).Meets l P :=
  ⟨h.1, hk.server _ h.2 hrest hstanding⟩

omit [DecidableEq ι] in
theorem updateBackendWeight (h : b.Meets l P) : (updateBackendWeight b).Meets l P := by
  obtain ⟨w, u, he⟩ := updateBackendWeight_eq b
  rw [he]
  exact h

theorem commit (hk : a.Keeps i P) (h : b.Meets l P) (hs : (b.srv i).Settled) :
    (b.commit i).Meets l P :=
  hk.updSrv h rfl hs.symm

theorem moved {px : Proxy ι L} {lb : L} (hsrvs : px.srvs = l)
    (h : P (Function.update b.srv i (b.srv i).lbCommitStatus) lb) :
    ((SmartHAProxy.updateBackendWeight (({ b with px := px } : Backend ι L).setLb lb)).commit
      i).Meets l P := by
  obtain ⟨w, u, he⟩ := updateBackendWeight_eq (({ b with px := px } : Backend ι L).setLb lb)
  rw [he]
  exact ⟨hsrvs, h⟩

theorem setServerStatusDown (hk : a.Keeps i P) (h : b.Meets l P)
    (hw : (b.srv i).willbeUsable = false) : (setServerStatusDown a b i).Meets l P := by
  unfold SmartHAProxy.setServerStatusDown
  rcases hch : (b.srv i).lbStatusChanged with - | -
  · simpa only [hch, Bool.not_false, if_true] using h
  rcases hc : (b.srv i).currentlyUsable with - | -
  · have hs := Server.settled_of_not_usable hc hw
    have hs' : ((SmartHAProxy.updateBackendWeight b).srv i).Settled := by
      rw [updateBackendWeight_srv]
      exact hs
    have hcommit := hk.commit (updateBackendWeight h) hs'
    simpa only [hch, hc, hw, Bool.not_true, Bool.not_false, Bool.false_eq_true, if_false,
      if_true] using hcommit
  · simp only [hch, hc, hw, Bool.not_true, Bool.false_eq_true, if_false]
    obtain ⟨-, hsrvs, -, -⟩ := (a.subWeight b.px (b.srv i)).dropServer_frame b.srv i b.px.lb
    apply moved
    · rw [hsrvs, hk.subWeight_srvs, h.1]
    · apply hk.unlink _ h.2 _ hc hw
      unfold Proxy.dropServer
      split <;> rfl

theorem setServerStatusUp (hk : a.Keeps i P) (h : b.Meets l P)
    (hc : (b.srv i).currentlyUsable = false) (hw : (b.srv i).willbeUsable = true) :
    (setServerStatusUp a b i).Meets l P := by
  unfold SmartHAProxy.setServerStatusUp
  rcases hch : (b.srv i).lbStatusChanged with - | -
  · simpa only [hch, Bool.not_false, if_true] using h
  · simp only [hch, hc, hw, Bool.not_true, Bool.false_eq_true, if_false]
    obtain ⟨-, hsrvs, -, -⟩ := (a.addWeight b.px (b.srv i)).takeServer_frame b.srv i b.px.lb
    apply moved
    · rw [hsrvs, hk.addWeight_srvs, h.1]
    · apply hk.link _ h.2 _ hc hw
      unfold Proxy.takeServer
      split <;> rfl

theorem updateServerWeight (hk : a.Keeps i P) (h : b.Meets l P) :
    (updateServerWeight a b i).Meets l P := by
  unfold SmartHAProxy.updateServerWeight
  rcases hch : (b.srv i).lbStatusChanged with - | -
  · simpa only [hch, Bool.not_false, if_true] using h
  rcases hc : (b.srv i).currentlyUsable with - | - <;>
    rcases hw : (b.srv i).willbeUsable with - | -
  · simpa only [hch, hc, hw, Bool.not_true, Bool.not_false, Bool.and_self, Bool.false_eq_true,
      if_false, if_true] using hk.commit h (Server.settled_of_not_usable hc hw)
  · simpa [hch, hc, hw] using hk.setServerStatusUp h hc hw
  · simpa [hch, hc, hw] using hk.setServerStatusDown h hw
  · simp only [hch, hc, hw, Bool.not_true, Bool.and_false, Bool.and_self, Bool.false_eq_true,
      if_false]
    exact moved ((hk.chgWeight_srvs _ _).trans h.1) (hk.relink _ h.2 rfl hc hw)

/-! ### `srv_update_status` -/

omit [DecidableEq ι] in
theorem checkBackendDown (h : b.Meets l P) (now prev : ℤ) :
    (checkBackendDown now prev b).Meets l P := by
  unfold SmartHAProxy.checkBackendDown
  split_ifs
  · exact h
  · exact h

omit [DecidableEq ι] in
theorem checkBackendChange (h : b.Meets l P) (now prev : ℤ) :
    (checkBackendChange now prev b).Meets l P := by
  unfold SmartHAProxy.checkBackendChange
  split_ifs
  · exact h
  · exact h
  · exact h

omit [DecidableEq ι] in
theorem endBackendDown (h : b.Meets l P) (now : ℤ) : (endBackendDown now b).Meets l P := by
  unfold SmartHAProxy.endBackendDown
  split
  · exact h
  · exact h

theorem serverRecalcEweight (hk : a.Keeps i P) (h : b.Meets l P) (now : ℤ) :
    (serverRecalcEweight now b i).Meets l P :=
  hk.updSrv h rfl rfl

theorem applyState (hk : a.Keeps i P) (h : b.Meets l P) (now prev : ℤ) :
    (applyState a.callbacks now prev b i).Meets l P := by
  have hdate := hk.updSrv h (f := fun s => { s with lastChange := now }) rfl rfl
  have hdown (hw : (b.srv i).willbeUsable = false) :
      (SmartHAProxy.checkBackendDown now prev (SmartHAProxy.setServerStatusDown a
        (b.updSrv i fun s => { s with lastChange := now }) i)).Meets l P := by
    apply checkBackendDown
    apply hk.setServerStatusDown hdate 
    rw [Backend.updSrv_srv_self]
    exact hw
  simp only [SmartHAProxy.applyState]
  split_ifs with hstopped hstopping hup hweight
  · exact hk.updSrv (hdown (not_willbeUsable_of_state (Or.inl hstopped.2))) rfl rfl
  · exact hdown (not_willbeUsable_of_state (Or.inr hstopping.2))
  · apply checkBackendDown
    refine hk.updateServerWeight (hk.serverRecalcEweight ?_ now) 
    exact hk.updSrv (endBackendDown h now) rfl rfl
  · exact checkBackendDown (hk.updateServerWeight h ) now prev
  · exact h

theorem applyPending (hk : a.Keeps i P) (h : b.Meets l P) (now prev : ℤ) :
    (applyPending a.callbacks now prev b i).Meets l P := by
  simp only [SmartHAProxy.applyPending]
  split_ifs
  · exact h
  · exact hk.updSrv (hk.applyState (hk.updSrv h rfl rfl) now prev) rfl rfl

theorem takeAdmin (hk : a.Keeps i P) (h : b.Meets l P)
    (hc : (b.srv i).currentlyUsable = false)
    (hn : (b.srv i).nextAdmin.has .maint = true ∨ (b.srv i).nextAdmin.has .drain = true) :
    (b.updSrv i fun s => { s with curAdmin := s.nextAdmin }).Meets l P := by
  refine hk.updSrv h rfl ?_
  rw [Server.curStanding_of_not_usable hc]
  exact Server.curStanding_of_not_usable (not_currentlyUsable_of_admin hn)

theorem enterMaint (hk : a.Keeps i P) (h : b.Meets l P)
    (hn : (b.srv i).nextAdmin.has .maint = true) (now prev : ℤ) :
    (enterMaint a.callbacks now prev b i).Meets l P := by
  have hpause := hk.updSrv h (f := fun s => { s with check := s.check.pause }) rfl rfl
  simp only [SmartHAProxy.enterMaint]
  split_ifs with hstopped
  · apply hk.takeAdmin hpause (not_currentlyUsable_of_stopped hstopped)
    rw [Backend.updSrv_srv_self]
    exact Or.inl hn
  · refine hk.updSrv (checkBackendDown (hk.setServerStatusDown
      (hk.updSrv hpause rfl rfl) ?_) now prev) rfl rfl
    rw [Backend.updSrv_srv_self]
    exact not_willbeUsable_of_state (Or.inl rfl)

theorem leaveMaint (hk : a.Keeps i P) (h : b.Meets l P) (track : ι → Option ι)
    (now prev : ℤ) : (leaveMaint a.callbacks now track prev b i).Meets l P := by
  apply checkBackendChange
  refine hk.updateServerWeight (hk.serverRecalcEweight ?_ now) 
  exact hk.updSrv (hk.updSrv h rfl rfl) rfl rfl

theorem applyMaint (hk : a.Keeps i P) (h : b.Meets l P) (track : ι → Option ι)
    (now prev : ℤ) : (applyMaint a.callbacks now track prev b i).Meets l P := by
  simp only [SmartHAProxy.applyMaint]
  split_ifs with henter hleave hstay
  · exact hk.enterMaint h (Bool.and_eq_true_iff.mp henter).2 now prev
  · exact hk.leaveMaint h track now prev
  · -- maintenance goes on
    have hmaint : (b.srv i).curAdmin.has .maint = true := by
      simpa only [hstay, Bool.and_true, Bool.not_eq_true', Bool.not_eq_false] using henter
    exact hk.takeAdmin h (not_currentlyUsable_of_admin (Or.inl hmaint)) (Or.inl hstay)
  · exact h

theorem applyDrain (hk : a.Keeps i P) (h : b.Meets l P) (now prev : ℤ) :
    (applyDrain a.callbacks now prev b i).Meets l P := by
  simp only [SmartHAProxy.applyDrain]
  split_ifs with hmaint henter hleave hstay
  · exact h
  · apply checkBackendDown
    refine hk.setServerStatusDown (hk.updSrv h rfl rfl) ?_
    rw [Backend.updSrv_srv_self]
    exact not_willbeUsable_of_admin (Or.inr (Bool.and_eq_true_iff.mp henter).2)
  · refine hk.updateServerWeight (hk.serverRecalcEweight ?_ now) 
    exact hk.updSrv (endBackendDown h now) rfl rfl
  · -- drain mode goes on
    have hdrain : (b.srv i).curAdmin.has .drain = true := by
      simpa only [hstay, Bool.and_true, Bool.not_eq_true', Bool.not_eq_false] using henter
    exact hk.takeAdmin h (not_currentlyUsable_of_admin (Or.inr hdrain)) (Or.inr hstay)
  · exact h

/-- **`srv_update_status` preserves the invariant.** -/
theorem srvUpdateStatus (hk : a.Keeps i P) (h : b.Meets l P) (track : ι → Option ι)
    (now : ℤ) : (srvUpdateStatus a.callbacks now track b i).Meets l P := by
  simp only [SmartHAProxy.srvUpdateStatus]
  exact hk.applyDrain (hk.applyMaint (hk.applyPending h now _) track now _) now _

end LbOps.Keeps

end Callbacks

/-! ### Runs -/

/-- The steps of `LbStep`, for any algorithm: a server is changed and the
algorithm is told. -/
inductive OpsStep (a : LbOps ι L) (track : ι → Option ι) : Backend ι L → Backend ι L → Prop
  | down (b : Backend ι L) (c : Change ι) (hc : c.server ∈ b.px.srvs)
      (hw : ((c.apply b).srv c.server).willbeUsable = false) :
      OpsStep a track b (setServerStatusDown a (c.apply b) c.server)
  | up (b : Backend ι L) (c : Change ι) (hc : c.server ∈ b.px.srvs)
      (hu : ((c.apply b).srv c.server).currentlyUsable = false)
      (hw : ((c.apply b).srv c.server).willbeUsable = true) :
      OpsStep a track b (setServerStatusUp a (c.apply b) c.server)
  | eweight (b : Backend ι L) (c : Change ι) (hc : c.server ∈ b.px.srvs) :
      OpsStep a track b (updateServerWeight a (c.apply b) c.server)
  | update (b : Backend ι L) (c : Change ι) (hc : c.server ∈ b.px.srvs) (now : ℤ) :
      OpsStep a track b (srvUpdateStatus a.callbacks now track (c.apply b) c.server)

section Steps

variable {a : LbOps ι L} {l : List ι} {P : (ι → Server) → L → Prop} {track : ι → Option ι}
  {b b' : Backend ι L}

theorem OpsStep.exists_server (hstep : OpsStep a track b b') : ∃ i ∈ b.px.srvs,
    ∀ {l : List ι} {P : (ι → Server) → L → Prop},
      a.Keeps i P → b.Meets l P → b'.Meets l P := by
  cases hstep with
  | down c hc hw =>
    exact ⟨c.server, hc, fun hk h => hk.setServerStatusDown (hk.updSrv h rfl rfl) hw⟩
  | up c hc hu hw =>
    exact ⟨c.server, hc, fun hk h => hk.setServerStatusUp (hk.updSrv h rfl rfl) hu hw⟩
  | eweight c hc =>
    exact ⟨c.server, hc, fun hk h => hk.updateServerWeight (hk.updSrv h rfl rfl)⟩
  | update c hc now =>
    exact ⟨c.server, hc, fun hk h => hk.srvUpdateStatus (hk.updSrv h rfl rfl) track now⟩

/-- **A change of a server, and what follows from it, preserves the invariant.** -/
theorem OpsStep.keeps (hk : ∀ i ∈ l, a.Keeps i P) (h : b.Meets l P)
    (hstep : OpsStep a track b b') : b'.Meets l P := by
  obtain ⟨i, hi, hkeeps⟩ := hstep.exists_server
  exact hkeeps (hk i (h.1 ▸ hi)) h

end Steps

/-! ### Moves -/

/-- The servers and the data of an algorithm while a change of server `i` is
applied: what `LbOps.Keeps` is about, as steps. -/
inductive LbOps.Move (a : LbOps ι L) (i : ι) : (ι → Server) × L → (ι → Server) × L → Prop
  | server {srv : ι → Server} {lb : L} (s : Server) (hrest : s.rest = (srv i).rest)
      (hstanding : s.curStanding = (srv i).curStanding) :
      Move a i (srv, lb) (Function.update srv i s, lb)
  | unlink {b : Backend ι L} (px : Proxy ι L) (hlb : px.lb = (a.subWeight b.px (b.srv i)).lb)
      (hc : (b.srv i).currentlyUsable = true) (hw : (b.srv i).willbeUsable = false) :
      Move a i (b.srv, b.px.lb)
        (Function.update b.srv i (b.srv i).lbCommitStatus, a.unlink ⟨b.srv, px⟩ i)
  | link {b : Backend ι L} (px : Proxy ι L) (hlb : px.lb = (a.addWeight b.px (b.srv i)).lb)
      (hc : (b.srv i).currentlyUsable = false) (hw : (b.srv i).willbeUsable = true) :
      Move a i (b.srv, b.px.lb)
        (Function.update b.srv i (b.srv i).lbCommitStatus, a.link ⟨b.srv, px⟩ i)
  | relink {b : Backend ι L} (px : Proxy ι L) (hlb : px.lb = (a.chgWeight b.px (b.srv i)).lb)
      (hc : (b.srv i).currentlyUsable = true) (hw : (b.srv i).willbeUsable = true) :
      Move a i (b.srv, b.px.lb)
        (Function.update b.srv i (b.srv i).lbCommitStatus, a.relink ⟨b.srv, px⟩ i)

/-- **A step is a sequence of moves** of one server. -/
theorem OpsStep.moves {a : LbOps ι L} {track : ι → Option ι} {b b' : Backend ι L}
    (hsub : ∀ px s, (a.subWeight px s).srvs = px.srvs)
    (hadd : ∀ px s, (a.addWeight px s).srvs = px.srvs)
    (hchg : ∀ px s, (a.chgWeight px s).srvs = px.srvs) (hstep : OpsStep a track b b') :
    ∃ i ∈ b.px.srvs, b'.px.srvs = b.px.srvs ∧
      Relation.ReflTransGen (a.Move i) (b.srv, b.px.lb) (b'.srv, b'.px.lb) := by
  obtain ⟨i, hi, hkeeps⟩ := hstep.exists_server
  have hk : a.Keeps i fun srv lb =>
      Relation.ReflTransGen (a.Move i) (b.srv, b.px.lb) (srv, lb) :=
    { subWeight_srvs := hsub
      addWeight_srvs := hadd
      chgWeight_srvs := hchg
      server := fun s h hrest hstanding => h.tail (.server s hrest hstanding)
      unlink := fun px h hlb hc hw => h.tail (.unlink px hlb hc hw)
      link := fun px h hlb hc hw => h.tail (.link px hlb hc hw)
      relink := fun px h hlb hc hw => h.tail (.relink px hlb hc hw) }
  obtain ⟨hsrvs, hmoves⟩ := hkeeps hk ⟨rfl, .refl⟩
  exact ⟨i, hi, hsrvs, hmoves⟩

/-! ### The four algorithms -/

variable {k : Lookup} {l : List ι} {P : (ι → Server) → k.State ι → Prop}
  {track : ι → Option ι} {b b' : Backend ι (k.State ι)}

theorem LbStep.opsStep (hstep : LbStep k track b b') : OpsStep k.ops track b b' := by
  cases hstep with
  | down c hc hw =>
    rw [k.callbacks_eq]
    exact .down b c hc hw
  | up c hc hu hw =>
    rw [k.callbacks_eq]
    exact .up b c hc hu hw
  | eweight c hc =>
    rw [k.callbacks_eq]
    exact .eweight b c hc
  | update c hc now =>
    rw [k.callbacks_eq]
    exact .update b c hc now

theorem LbStep.keeps (hk : ∀ i ∈ l, (k.ops : LbOps ι (k.State ι)).Keeps i P) (h : b.Meets l P)
    (hstep : LbStep k track b b') : b'.Meets l P :=
  hstep.opsStep.keeps hk h

theorem Lookup.srvs_weights (k : Lookup) (px : Proxy ι (k.State ι)) (s : Server) :
    ((k.ops : LbOps ι (k.State ι)).subWeight px s).srvs = px.srvs ∧
      ((k.ops : LbOps ι (k.State ι)).addWeight px s).srvs = px.srvs ∧
      ((k.ops : LbOps ι (k.State ι)).chgWeight px s).srvs = px.srvs := by
  cases k with
  | rrtree =>
    have hmove (backup : Bool) (f : UInt32 → UInt32) :
        (fwrrMoveWeight px backup f).srvs = px.srvs := by
      unfold fwrrMoveWeight
      split <;> rfl
    exact ⟨hmove _ _, hmove _ _, rfl⟩
  | lctree => exact ⟨px.subWeight_srvs s, px.addWeight_srvs s, px.chgWeight_srvs s⟩
  | chtree => exact ⟨px.subWeight_srvs s, px.addWeight_srvs s, px.chgWeight_srvs s⟩
  | fstree => exact ⟨px.subWeight_srvs s, px.addWeight_srvs s, px.chgWeight_srvs s⟩

/-- **One server changes**, and nothing of it that changes of status leave alone. -/
theorem LbStep.frame (hstep : LbStep k track b b') : ∃ i ∈ b.px.srvs, ∃ s : Server,
    b'.srv = Function.update b.srv i s ∧ s.rest = (b.srv i).rest ∧ b'.px.srvs = b.px.srvs := by
  obtain ⟨i, hi, hkeeps⟩ := hstep.opsStep.exists_server
  let P (srv : ι → Server) : Prop :=
    ∃ s : Server, srv = Function.update b.srv i s ∧ s.rest = (b.srv i).rest
  have hcommit {srv : ι → Server} (h : P srv) {s : Server} (hs : s.rest = (srv i).rest) :
      P (Function.update srv i s) := by
    obtain ⟨s', rfl, hs'⟩ := h
    rw [Function.update_self] at hs
    exact ⟨s, Function.update_idem .., hs.trans hs'⟩
  have hk : (k.ops : LbOps ι (k.State ι)).Keeps i fun srv _ => P srv := by
    refine ⟨fun px s => (k.srvs_weights px s).1, fun px s => (k.srvs_weights px s).2.1,
      fun px s => (k.srvs_weights px s).2.2, fun s h hs _ => hcommit h hs, ?_, ?_, ?_⟩
    · exact fun _ h _ _ _ => hcommit h rfl
    · exact fun _ h _ _ _ => hcommit h rfl
    · exact fun _ h _ _ _ => hcommit h rfl
  obtain ⟨hsrvs, s, hs, hrest⟩ := hkeeps hk ⟨rfl, b.srv i, (Function.update_eq_self ..).symm, rfl⟩
  exact ⟨i, hi, s, hs, hrest, hsrvs⟩

end SmartHAProxy
