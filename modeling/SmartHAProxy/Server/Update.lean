/-
`srv_update_status` (server.c): pending changes of a server's state, weight
and administrative flags are applied, and the load balancing algorithm of its
backend is told.

The function first applies a change of state or weight under the flags in
force, then the change of flags.  What it does to logs, e-mail alerts,
streams and queued connections is left out; the queues are the subject of
another module.
-/
import SmartHAProxy.Lb.Status

namespace SmartHAProxy

variable {ι L : Type*} [DecidableEq ι]

/-- The callbacks of `struct lbprm`.  Any of them may be NULL. -/
structure LbCallbacks (ι L : Type*) where
  setServerStatusDown : Option (Backend ι L → ι → Backend ι L)
  setServerStatusUp : Option (Backend ι L → ι → Backend ι L)
  updateServerEweight : Option (Backend ι L → ι → Backend ι L)

def callback (f : Option (Backend ι L → ι → Backend ι L)) (b : Backend ι L) (i : ι) :
    Backend ι L :=
  match f with
  | some f => f b i
  | none => b

/-- The callbacks of a tree-based algorithm. -/
def LbOps.callbacks (a : LbOps ι L) : LbCallbacks ι L where
  setServerStatusDown := some (SmartHAProxy.setServerStatusDown a)
  setServerStatusUp := some (SmartHAProxy.setServerStatusUp a)
  updateServerEweight := some (updateServerWeight a)

section Update

variable (cb : LbCallbacks ι L) (now : ℤ) (track : ι → Option ι)

/-- `server_recalc_eweight`, without the update of the status. -/
def serverRecalcEweight (b : Backend ι L) (i : ι) : Backend ι L :=
  b.updSrv i fun s =>
    let state :=
      if (now < s.lastChange ∨ now ≥ s.lastChange + s.slowstart) ∧ s.nextState = .starting then
        SrvState.running
      else s.nextState
    let w :=
      if state = .starting ∧ b.px.propDyn then
        UInt32.ofInt
          ((b.px.wdiv.toNat * (now - s.lastChange) + s.slowstart).tdiv s.slowstart)
      else b.px.wdiv
    { s with
      nextState := state
      nextEweight := (s.uweight * w + b.px.wmult - 1) / b.px.wmult }

/-- "Now propagate the status change to any LB algorithms." -/
def propagateStatus (b : Backend ι L) (i : ι) : Backend ι L :=
  match cb.updateServerEweight with
  | some f => f b i
  | none =>
    if (b.srv i).willbeUsable then callback cb.setServerStatusUp b i
    else callback cb.setServerStatusDown b i

/-- `set_backend_down` when the last server was lost, `prev` being the number
of servers before. -/
def checkBackendDown (prev : ℤ) (b : Backend ι L) : Backend ι L :=
  if prev ≠ 0 ∧ b.px.srvBck = 0 ∧ b.px.srvAct = 0 then setBackendDown now b else b

/-- The same, with the date noted when the first server came back. -/
def checkBackendChange (prev : ℤ) (b : Backend ι L) : Backend ι L :=
  if prev ≠ 0 ∧ b.px.srvBck = 0 ∧ b.px.srvAct = 0 then setBackendDown now b
  else if prev = 0 ∧ (b.px.srvBck ≠ 0 ∨ b.px.srvAct ≠ 0) then
    { b with px := { b.px with lastChange := now } }
  else b

/-- The time a backend without servers was down. -/
def endBackendDown (b : Backend ι L) : Backend ι L :=
  if b.px.srvBck = 0 ∧ b.px.srvAct = 0 then
    let downTime :=
      if b.px.lastChange < now then b.px.downTime + (now - b.px.lastChange) else b.px.downTime
    { b with px := { b.px with downTime := downTime, lastChange := now } }
  else b

/-- The part of `srv_update_status` that applies a change of state or weight,
under the administrative flags in force. -/
def applyState (prev : ℤ) (b : Backend ι L) (i : ι) : Backend ι L :=
  let s := b.srv i
  if s.curState ≠ .stopped ∧ s.nextState = .stopped then
    let b := b.updSrv i fun s => { s with lastChange := now }
    let b := checkBackendDown now prev (callback cb.setServerStatusDown b i)
    b.updSrv i fun s => { s with downTrans := s.downTrans + 1 }
  else if s.curState ≠ .stopping ∧ s.nextState = .stopping then
    let b := b.updSrv i fun s => { s with lastChange := now }
    checkBackendDown now prev (callback cb.setServerStatusDown b i)
  else if (s.curState ≠ .running ∧ s.nextState = .running) ∨
      (s.curState ≠ .starting ∧ s.nextState = .starting) then
    let b := endBackendDown now b
    let b := b.updSrv i fun s =>
      { s with
        downTime :=
          if s.curState = .stopped ∧ s.lastChange < now then s.downTime + (now - s.lastChange)
          else s.downTime
        lastChange := now }
    checkBackendDown now prev (propagateStatus cb (serverRecalcEweight now b i) i)
  else if s.curEweight ≠ s.nextEweight then
    checkBackendDown now prev (propagateStatus cb b i)
  else b

/-- The first part of `srv_update_status`: unless the server is in maintenance,
the pending flags are put aside while the state is applied. -/
def applyPending (prev : ℤ) (b : Backend ι L) (i : ι) : Backend ι L :=
  if (b.srv i).curAdmin.has .maint then b
  else
    let nextAdmin := (b.srv i).nextAdmin
    let b := b.updSrv i fun s => { s with nextAdmin := s.curAdmin }
    (applyState cb now prev b i).updSrv i fun s => { s with nextAdmin := nextAdmin }

/-- Entering maintenance disables health checks, and the server goes down. -/
def enterMaint (prev : ℤ) (b : Backend ι L) (i : ι) : Backend ι L :=
  let b := b.updSrv i fun s => { s with check := s.check.pause }
  if (b.srv i).curState = .stopped then
    b.updSrv i fun s => { s with curAdmin := s.nextAdmin }
  else
    let b := b.updSrv i fun s =>
      { s with check := { s.check with health := 0 }, lastChange := now, nextState := .stopped }
    let b := checkBackendDown now prev (callback cb.setServerStatusDown b i)
    b.updSrv i fun s => { s with downTrans := s.downTrans + 1 }

/-- Leaving maintenance re-enables health checks; the server comes up unless
its checks or the server it tracks tell otherwise. -/
def leaveMaint (prev : ℤ) (b : Backend ι L) (i : ι) : Backend ι L :=
  let tracked := (track i).map fun j => (b.srv j).nextState
  let b := b.updSrv i fun s => { s with check := s.check.resume }
  let up := tracked ≠ some .stopped ∧ (b.srv i).agent.passes ∧ (b.srv i).check.passes
  let b := b.updSrv i fun s =>
    { s with
      lastChange := if up ∧ tracked ≠ some .stopping then now else s.lastChange
      nextState :=
        if up then
          if tracked = some .stopping then .stopping
          else if s.slowstart > 0 then .starting
          else .running
        else s.nextState }
  checkBackendChange now prev (propagateStatus cb (serverRecalcEweight now b i) i)

/-- The part of `srv_update_status` that applies a change of the maintenance
flags. -/
def applyMaint (prev : ℤ) (b : Backend ι L) (i : ι) : Backend ι L :=
  let s := b.srv i
  if !s.curAdmin.has .maint && s.nextAdmin.has .maint then enterMaint cb now prev b i
  else if s.curAdmin.has .maint && !s.nextAdmin.has .maint then leaveMaint cb now track prev b i
  else if s.nextAdmin.has .maint then b.updSrv i fun s => { s with curAdmin := s.nextAdmin }
  else b

/-- The part of `srv_update_status` that applies a change of the drain flags,
unless the server is in maintenance. -/
def applyDrain (prev : ℤ) (b : Backend ι L) (i : ι) : Backend ι L :=
  let s := b.srv i
  if s.nextAdmin.has .maint then b
  else if !s.curAdmin.has .drain && s.nextAdmin.has .drain then
    let b := b.updSrv i fun s => { s with lastChange := now }
    checkBackendDown now prev (callback cb.setServerStatusDown b i)
  else if s.curAdmin.has .drain && !s.nextAdmin.has .drain then
    let b := endBackendDown now b
    let b := b.updSrv i fun s =>
      { s with
        downTime := if s.lastChange < now then s.downTime + (now - s.lastChange) else s.downTime
        lastChange := now }
    propagateStatus cb (serverRecalcEweight now b i) i
  else if s.nextAdmin.has .drain then b.updSrv i fun s => { s with curAdmin := s.nextAdmin }
  else b

/-- `srv_update_status`, at date `now`. -/
def srvUpdateStatus (b : Backend ι L) (i : ι) : Backend ι L :=
  let prev := b.px.srvBck + b.px.srvAct
  let b := applyPending cb now prev b i
  let b := applyMaint cb now track prev b i
  applyDrain cb now prev b i

end Update

/-! ### The totals after an update

Each callback is issued in a situation it was made for: the callback for
servers that go down only when the server will not be usable.  So the totals
are balanced again when `srvUpdateStatus` returns. -/

section Totals

variable {a : LbOps ι L} {Synced : (ι → Standing) → L → UInt32 → UInt32 → Prop}
  {l : List ι} {b : Backend ι L} {i : ι}

theorem Pending.updSrv (h : Pending Synced l b i) {f : Server → Server}
    (hf : (f (b.srv i)).curStanding = (b.srv i).curStanding) :
    Pending Synced l (b.updSrv i f) i := by
  have hcur : (b.updSrv i f).curStandings = b.curStandings := by
    funext j
    by_cases hj : j = i
    · subst hj
      rw [Backend.curStandings, Backend.updSrv_srv_self, hf]
      rfl
    · rw [Backend.curStandings, Backend.updSrv_srv_of_ne _ _ hj]
      rfl
  have hcomm : (b.updSrv i f).committed = b.committed := by
    funext j
    have hj : (b.updSrv i f).curStandings j = b.curStandings j := by rw [hcur]
    rw [Backend.committed, Backend.committed, Backend.updSrv_px]
    exact if_congr Iff.rfl hj rfl
  refine ⟨h.srvs, ?_, ?_, ?_⟩
  · rw [hcur]
    exact h.tally
  · intro j hmem hj
    rw [Backend.updSrv_srv_of_ne _ _ hj]
    exact h.settled j hmem hj
  · rw [hcomm]
    exact h.synced

theorem Balanced.pending (h : Balanced Synced l b) (i : ι) : Pending Synced l b i :=
  ⟨h.srvs, h.tally.trans (census_congr fun j hj => (h.settled j hj).symm),
    fun j hmem _ => h.settled j hmem, h.synced⟩

theorem Balanced.updSrv (h : Balanced Synced l b) {f : Server → Server} (hi : i ∈ l)
    (hcur : (f (b.srv i)).curStanding = (b.srv i).curStanding)
    (hnext : (f (b.srv i)).nextStanding = (b.srv i).nextStanding) :
    Balanced Synced l (b.updSrv i f) := by
  apply ((h.pending i).updSrv hcur).balanced
  rw [Backend.updSrv_srv_self, Server.Settled, hcur, hnext]
  exact h.settled i hi

theorem Balanced.checkBackendDown (h : Balanced Synced l b) (now prev : ℤ) :
    Balanced Synced l (checkBackendDown now prev b) := by
  unfold SmartHAProxy.checkBackendDown
  split_ifs
  · exact ⟨h.srvs, h.tally, h.settled, h.synced⟩
  · exact h

theorem Balanced.checkBackendChange (h : Balanced Synced l b) (now prev : ℤ) :
    Balanced Synced l (checkBackendChange now prev b) := by
  unfold SmartHAProxy.checkBackendChange
  split_ifs
  · exact ⟨h.srvs, h.tally, h.settled, h.synced⟩
  · exact ⟨h.srvs, h.tally, h.settled, h.synced⟩
  · exact h

omit [DecidableEq ι] in
@[simp] theorem checkBackendDown_srv (now prev : ℤ) (b : Backend ι L) :
    (checkBackendDown now prev b).srv = b.srv := by
  unfold checkBackendDown
  split_ifs <;> rfl

theorem Pending.endBackendDown (h : Pending Synced l b i) (now : ℤ) :
    Pending Synced l (endBackendDown now b) i := by
  unfold SmartHAProxy.endBackendDown
  split
  · exact ⟨h.srvs, h.tally, h.settled, h.synced⟩
  · exact h

omit [DecidableEq ι] in
@[simp] theorem endBackendDown_srv (now : ℤ) (b : Backend ι L) :
    (endBackendDown now b).srv = b.srv := by
  unfold endBackendDown
  split_ifs <;> rfl

theorem Pending.serverRecalcEweight (h : Pending Synced l b i) (now : ℤ) :
    Pending Synced l (serverRecalcEweight now b i) i :=
  h.updSrv rfl

theorem Pending.propagateStatus (ha : a.Lawful Synced) (h : Pending Synced l b i) (hi : i ∈ l) :
    Balanced Synced l (propagateStatus a.callbacks b i) :=
  h.updateServerWeight ha hi

theorem committed_srv_commit (b : Backend ι L) (i : ι) : ((b.commit i).srv i).Committed := by
  rw [Backend.commit, Backend.updSrv_srv_self]
  exact Server.committed_commit _

theorem committed_setServerStatusDown (a : LbOps ι L) (b : Backend ι L) (i : ι) :
    ((setServerStatusDown a b i).srv i).Committed := by
  simp only [setServerStatusDown]
  split_ifs with hch
  · exact Server.committed_of_not_changed (by simpa using hch)
  all_goals exact committed_srv_commit _ i

theorem committed_setServerStatusUp (a : LbOps ι L) (b : Backend ι L) (i : ι) :
    ((setServerStatusUp a b i).srv i).Committed := by
  simp only [setServerStatusUp]
  split_ifs with hch
  · exact Server.committed_of_not_changed (by simpa using hch)
  all_goals exact committed_srv_commit _ i

theorem committed_updateServerWeight (a : LbOps ι L) (b : Backend ι L) (i : ι) :
    ((updateServerWeight a b i).srv i).Committed := by
  simp only [updateServerWeight]
  split_ifs with hch
  · exact Server.committed_of_not_changed (by simpa using hch)
  · exact committed_srv_commit _ i
  · exact committed_setServerStatusUp a b i
  · exact committed_setServerStatusDown a b i
  · exact committed_srv_commit _ i

/-- The state and the weight of the server are committed. -/
def Applied (b : Backend ι L) (i : ι) : Prop :=
  (b.srv i).nextState = (b.srv i).curState ∧ (b.srv i).nextEweight = (b.srv i).curEweight

theorem not_willbeUsable_of_state {s : Server} (h : s.nextState = .stopped ∨ s.nextState = .stopping) :
    s.willbeUsable = false := by
  rcases h with h | h <;> simp [Server.willbeUsable, Server.usableWith, h]

theorem not_willbeUsable_of_admin {s : Server}
    (h : s.nextAdmin.has .maint = true ∨ s.nextAdmin.has .drain = true) :
    s.willbeUsable = false := by
  rcases h with h | h <;> simp [Server.willbeUsable, Server.usableWith, h]

theorem not_currentlyUsable_of_stopped {s : Server} (h : s.curState = .stopped) :
    s.currentlyUsable = false := by
  simp [Server.currentlyUsable, Server.usableWith, h]

theorem not_currentlyUsable_of_admin {s : Server}
    (h : s.curAdmin.has .maint = true ∨ s.curAdmin.has .drain = true) :
    s.currentlyUsable = false := by
  rcases h with h | h <;> simp [Server.currentlyUsable, Server.usableWith, h]

/-- The change of state or weight is applied. -/
theorem applyState_spec (ha : a.Lawful Synced) (h : Pending Synced l b i) (hi : i ∈ l)
    (hadmin : (b.srv i).nextAdmin = (b.srv i).curAdmin) (now prev : ℤ) :
    Balanced Synced l (applyState a.callbacks now prev b i) ∧
      Applied (applyState a.callbacks now prev b i) i := by
  simp only [applyState]
  split_ifs with hstopped hstopping hup hweight
  · -- the server goes down
    have hw : ((b.updSrv i fun s => { s with lastChange := now }).srv i).willbeUsable = false := by
      rw [Backend.updSrv_srv_self]
      exact not_willbeUsable_of_state (Or.inl hstopped.2)
    have hpend := h.updSrv (f := fun s => { s with lastChange := now }) rfl
    have hcomm := committed_setServerStatusDown a (b.updSrv i fun s => { s with lastChange := now }) i
    refine ⟨((hpend.setServerStatusDown ha hi hw).checkBackendDown now prev).updSrv hi rfl rfl, ?_⟩
    simp only [Applied, Backend.updSrv_srv_self, checkBackendDown_srv]
    exact ⟨hcomm.1, hcomm.2.2⟩
  · have hw : ((b.updSrv i fun s => { s with lastChange := now }).srv i).willbeUsable = false := by
      rw [Backend.updSrv_srv_self]
      exact not_willbeUsable_of_state (Or.inr hstopping.2)
    have hpend := h.updSrv (f := fun s => { s with lastChange := now }) rfl
    have hcomm := committed_setServerStatusDown a (b.updSrv i fun s => { s with lastChange := now }) i
    refine ⟨(hpend.setServerStatusDown ha hi hw).checkBackendDown now prev, ?_⟩
    simp only [Applied, checkBackendDown_srv]
    exact ⟨hcomm.1, hcomm.2.2⟩
  · -- the server comes up
    have hpend := (((h.endBackendDown now).updSrv (f := fun s =>
      { s with
        downTime :=
          if s.curState = .stopped ∧ s.lastChange < now then s.downTime + (now - s.lastChange)
          else s.downTime
        lastChange := now }) rfl).serverRecalcEweight now)
    refine ⟨(hpend.propagateStatus ha hi).checkBackendDown now prev, ?_⟩
    have hcomm := committed_updateServerWeight a (serverRecalcEweight now
      ((endBackendDown now b).updSrv i fun s =>
        { s with
          downTime :=
            if s.curState = .stopped ∧ s.lastChange < now then s.downTime + (now - s.lastChange)
            else s.downTime
          lastChange := now }) i) i
    simp only [Applied, checkBackendDown_srv]
    exact ⟨hcomm.1, hcomm.2.2⟩
  · have hcomm := committed_updateServerWeight a b i
    refine ⟨(h.propagateStatus ha hi).checkBackendDown now prev, ?_⟩
    simp only [Applied, checkBackendDown_srv]
    exact ⟨hcomm.1, hcomm.2.2⟩
  · -- nothing was pending but the flags, which are those in force
    have hstate : (b.srv i).nextState = (b.srv i).curState := by
      rcases hn : (b.srv i).nextState <;> rcases hc : (b.srv i).curState <;>
        simp [hn, hc] at hstopped hstopping hup ⊢
    have hew : (b.srv i).nextEweight = (b.srv i).curEweight := (not_not.mp hweight).symm
    refine ⟨h.balanced (Server.settled_of_not_changed ?_), hstate, hew⟩
    simp [Server.lbStatusChanged, hstate, hew, hadmin]

theorem Pending.takeAdmin (h : Pending Synced l b i) (hc : (b.srv i).currentlyUsable = false)
    (hn : (b.srv i).nextAdmin.has .maint = true ∨ (b.srv i).nextAdmin.has .drain = true) :
    Balanced Synced l (b.updSrv i fun s => { s with curAdmin := s.nextAdmin }) := by
  have hc' : ({ b.srv i with curAdmin := (b.srv i).nextAdmin } : Server).currentlyUsable = false :=
    not_currentlyUsable_of_admin hn
  have hcur : ({ b.srv i with curAdmin := (b.srv i).nextAdmin } : Server).curStanding
      = (b.srv i).curStanding := by
    simp only [Server.curStanding, hc, hc']
  apply (h.updSrv (f := fun s => { s with curAdmin := s.nextAdmin }) hcur).balanced
  rw [Backend.updSrv_srv_self]
  exact Server.settled_of_not_usable hc' (not_willbeUsable_of_admin hn)

theorem Pending.enterMaint (ha : a.Lawful Synced) (h : Pending Synced l b i) (hi : i ∈ l)
    (hn : (b.srv i).nextAdmin.has .maint = true) (now prev : ℤ) :
    Balanced Synced l (enterMaint a.callbacks now prev b i) := by
  have hpend := h.updSrv (f := fun s => { s with check := s.check.pause }) rfl
  simp only [SmartHAProxy.enterMaint]
  split_ifs with hstopped
  · refine hpend.takeAdmin (not_currentlyUsable_of_stopped hstopped) (Or.inl ?_)
    rw [Backend.updSrv_srv_self]
    exact hn
  · have hpend' := hpend.updSrv (f := fun s =>
      { s with check := { s.check with health := 0 }, lastChange := now, nextState := .stopped }) rfl
    refine ((hpend'.setServerStatusDown ha hi ?_).checkBackendDown now prev).updSrv hi rfl rfl
    rw [Backend.updSrv_srv_self]
    exact not_willbeUsable_of_state (Or.inl rfl)

theorem Pending.leaveMaint (ha : a.Lawful Synced) (h : Pending Synced l b i) (hi : i ∈ l)
    (track : ι → Option ι) (now prev : ℤ) :
    Balanced Synced l (leaveMaint a.callbacks now track prev b i) := by
  apply Balanced.checkBackendChange
  refine Pending.propagateStatus ha ?_ hi
  apply Pending.serverRecalcEweight
  refine Pending.updSrv ?_ rfl
  exact h.updSrv rfl

theorem applyMaint_spec (ha : a.Lawful Synced) (h : Pending Synced l b i) (hi : i ∈ l)
    (track : ι → Option ι) (now prev : ℤ) :
    Balanced Synced l (applyMaint a.callbacks now track prev b i) ∨
      (applyMaint a.callbacks now track prev b i = b ∧
        (b.srv i).curAdmin.has .maint = false ∧ (b.srv i).nextAdmin.has .maint = false) := by
  rcases hc : (b.srv i).curAdmin.has .maint with - | - <;>
    rcases hn : (b.srv i).nextAdmin.has .maint with - | -
  · right
    simp [applyMaint, hc, hn]
  · left
    simpa [applyMaint, hc, hn] using h.enterMaint ha hi hn now prev
  · left
    simpa [applyMaint, hc, hn] using h.leaveMaint ha hi track now prev
  · left
    simpa [applyMaint, hc, hn] using
      h.takeAdmin (not_currentlyUsable_of_admin (Or.inl hc)) (Or.inl hn)

theorem applyDrain_spec (ha : a.Lawful Synced) (h : Pending Synced l b i) (hi : i ∈ l)
    (hmaint : (b.srv i).nextAdmin.has .maint = true → (b.srv i).Settled)
    (hdrain : (b.srv i).curAdmin.has .drain = false → (b.srv i).nextAdmin.has .drain = false →
      (b.srv i).Settled) (now prev : ℤ) :
    Balanced Synced l (applyDrain a.callbacks now prev b i) := by
  simp only [applyDrain]
  rcases hm : (b.srv i).nextAdmin.has .maint with - | -
  · rcases hc : (b.srv i).curAdmin.has .drain with - | - <;>
      rcases hn : (b.srv i).nextAdmin.has .drain with - | -
    · simpa using h.balanced (hdrain hc hn)
    · -- entering drain mode
      have hpend := h.updSrv (f := fun s => { s with lastChange := now }) rfl
      refine (hpend.setServerStatusDown ha hi ?_).checkBackendDown now prev
      rw [Backend.updSrv_srv_self]
      exact not_willbeUsable_of_admin (Or.inr hn)
    · -- completely leaving drain mode
      refine Pending.propagateStatus ha ?_ hi
      apply Pending.serverRecalcEweight
      exact (h.endBackendDown now).updSrv rfl
    · -- remaining in drain mode
      exact h.takeAdmin (not_currentlyUsable_of_admin (Or.inr hc)) (Or.inr hn)
  · simpa using h.balanced (hmaint hm)

omit [DecidableEq ι] in
theorem Applied.settled (h : Applied b i) (hcm : (b.srv i).curAdmin.has .maint = false)
    (hnm : (b.srv i).nextAdmin.has .maint = false) (hcd : (b.srv i).curAdmin.has .drain = false)
    (hnd : (b.srv i).nextAdmin.has .drain = false) : (b.srv i).Settled := by
  have husable : (b.srv i).currentlyUsable = (b.srv i).willbeUsable := by
    simp only [Server.currentlyUsable, Server.willbeUsable, Server.usableWith, h.1, h.2, hcm, hnm,
      hcd, hnd]
  rw [Server.Settled, Server.curStanding, Server.nextStanding, husable, h.2]

theorem applyPending_spec (ha : a.Lawful Synced) (h : Pending Synced l b i) (hi : i ∈ l)
    (now prev : ℤ) :
    Pending Synced l (applyPending a.callbacks now prev b i) i ∧
      (((applyPending a.callbacks now prev b i).srv i).curAdmin.has .maint = false →
        Applied (applyPending a.callbacks now prev b i) i) := by
  simp only [applyPending]
  split_ifs with hm
  · refine ⟨h, fun hm' => ?_⟩
    simp [hm] at hm'
  · obtain ⟨hbal, happ⟩ := applyState_spec ha
      (h.updSrv (f := fun s => { s with nextAdmin := s.curAdmin }) rfl) hi
      (by rw [Backend.updSrv_srv_self]) now prev
    refine ⟨(hbal.pending i).updSrv rfl, fun _ => ?_⟩
    simpa only [Applied, Backend.updSrv_srv_self] using happ

/-- **`srv_update_status` leaves balanced totals behind.** -/
theorem Pending.srvUpdateStatus (ha : a.Lawful Synced) (h : Pending Synced l b i) (hi : i ∈ l)
    (track : ι → Option ι) (now : ℤ) :
    Balanced Synced l (srvUpdateStatus a.callbacks now track b i) := by
  simp only [SmartHAProxy.srvUpdateStatus]
  obtain ⟨hpend, happ⟩ := applyPending_spec ha h hi now (b.px.srvBck + b.px.srvAct)
  rcases applyMaint_spec ha hpend hi track now (b.px.srvBck + b.px.srvAct) with
    hbal | ⟨he, hcm, hnm⟩
  · exact applyDrain_spec ha (hbal.pending i) hi (fun _ => hbal.settled i hi)
      (fun _ _ => hbal.settled i hi) now _
  · rw [he]
    refine applyDrain_spec ha hpend hi ?_ ((happ hcm).settled hcm hnm) now _
    intro hnm'
    simp [hnm] at hnm'

end Totals

end SmartHAProxy
