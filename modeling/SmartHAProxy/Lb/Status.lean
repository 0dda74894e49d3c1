/-
Status and weight changes of a server, as the tree-based algorithms follow
them (lb_fwrr.c, lb_fwlc.c, lb_fas.c, lb_chash.c).

Each algorithm has three callbacks: the server went down, the server came up,
the weight of the server changed.  The callbacks of the four algorithms share
their control flow and the bookkeeping of the totals.  They differ in where
they keep the weights (`fwrr` has its own copy) and in what they do to their
trees; that is what `LbOps` collects.

Design.  Between two callbacks the totals of a backend are those of the
committed values, whatever is pending: `Pending b i` says so for a backend
where only server `i` may have something pending.  A callback turns it into
`Balanced`, where nothing that matters is pending and the totals are those
that a recount would find.  Each algorithm may add what its own data have to do
with the committed standings of the servers and with the totals (`Synced`);
`LbOps.Lawful` says what it has to show for that.
-/
import SmartHAProxy.Lb.Backend
import Mathlib.Data.List.Find

namespace SmartHAProxy

variable {ι L : Type*}

/-! ### The bookkeeping -/

namespace Proxy

/-- The total of the server's group when it leaves. -/
def subWeight (px : Proxy ι L) (s : Server) : Proxy ι L :=
  if s.backup then { px with totWbck := px.totWbck - s.curEweight }
  else { px with totWact := px.totWact - s.curEweight }

/-- The total of the server's group when it joins. -/
def addWeight (px : Proxy ι L) (s : Server) : Proxy ι L :=
  if s.backup then { px with totWbck := px.totWbck + s.nextEweight }
  else { px with totWact := px.totWact + s.nextEweight }

/-- The total of the server's group when its weight changes. -/
def chgWeight (px : Proxy ι L) (s : Server) : Proxy ι L :=
  if s.backup then { px with totWbck := px.totWbck + (s.nextEweight - s.curEweight) }
  else { px with totWact := px.totWact + (s.nextEweight - s.curEweight) }

variable [DecidableEq ι]

/-- Server `i` leaves its group.  If it was the first backup server, the next
one is searched behind it. -/
def dropServer (px : Proxy ι L) (srv : ι → Server) (i : ι) : Proxy ι L :=
  if (srv i).backup then
    { px with
      srvBck := px.srvBck - 1
      fbck :=
        if px.fbck = some i then
          (after px.srvs i).find? fun j => (srv j).backup && (srv j).willbeUsable
        else px.fbck }
  else { px with srvAct := px.srvAct - 1 }

/-- Server `i` joins its group.  It becomes the first backup server if there
was none or if the former one stands behind it. -/
def takeServer (px : Proxy ι L) (srv : ι → Server) (i : ι) : Proxy ι L :=
  if (srv i).backup then
    { px with
      srvBck := px.srvBck + 1
      fbck :=
        if px.useAllBk then px.fbck
        else match px.fbck with
          | none => some i
          | some k => if k ∈ after px.srvs i then some i else some k }
  else { px with srvAct := px.srvAct + 1 }

/-! The counters, the weights and the algorithm's data are independent. -/

omit [DecidableEq ι] in
@[simp] theorem subWeight_srvs (px : Proxy ι L) (s : Server) : (px.subWeight s).srvs = px.srvs := by
  unfold subWeight
  split <;> rfl

omit [DecidableEq ι] in
@[simp] theorem addWeight_srvs (px : Proxy ι L) (s : Server) : (px.addWeight s).srvs = px.srvs := by
  unfold addWeight
  split <;> rfl

omit [DecidableEq ι] in
@[simp] theorem chgWeight_srvs (px : Proxy ι L) (s : Server) : (px.chgWeight s).srvs = px.srvs := by
  unfold chgWeight
  split <;> rfl

theorem dropServer_frame (px : Proxy ι L) (srv : ι → Server) (i : ι) (lb : L) :
    (px.withLb lb).dropServer srv i = (px.dropServer srv i).withLb lb ∧
      (px.dropServer srv i).srvs = px.srvs ∧ (px.dropServer srv i).totWact = px.totWact ∧
      (px.dropServer srv i).totWbck = px.totWbck := by
  unfold dropServer Proxy.withLb
  split <;> exact ⟨rfl, rfl, rfl, rfl⟩

theorem takeServer_frame (px : Proxy ι L) (srv : ι → Server) (i : ι) (lb : L) :
    (px.withLb lb).takeServer srv i = (px.takeServer srv i).withLb lb ∧
      (px.takeServer srv i).srvs = px.srvs ∧ (px.takeServer srv i).totWact = px.totWact ∧
      (px.takeServer srv i).totWbck = px.totWbck := by
  unfold takeServer Proxy.withLb
  split <;> exact ⟨rfl, rfl, rfl, rfl⟩

end Proxy

/-! ### The callbacks -/

/-- What an algorithm does on its own: the totals of the groups, and the trees. -/
structure LbOps (ι L : Type*) where
  subWeight : Proxy ι L → Server → Proxy ι L
  addWeight : Proxy ι L → Server → Proxy ι L
  chgWeight : Proxy ι L → Server → Proxy ι L
  /-- take a server that goes down out of its tree -/
  unlink : Backend ι L → ι → L
  /-- put a server that comes up into a tree -/
  link : Backend ι L → ι → L
  /-- move a server whose weight changed -/
  relink : Backend ι L → ι → L

section Callbacks

variable [DecidableEq ι] (a : LbOps ι L) (b : Backend ι L) (i : ι)

/-- `srv_lb_commit_status`. -/
def Backend.commit : Backend ι L := b.updSrv i Server.lbCommitStatus

def setServerStatusDown : Backend ι L :=
  let s := b.srv i
  if !s.lbStatusChanged then b
  else if s.willbeUsable then b.commit i
  else if !s.currentlyUsable then (updateBackendWeight b).commit i
  else
    let b := { b with px := (a.subWeight b.px s).dropServer b.srv i }
    (updateBackendWeight (b.setLb (a.unlink b i))).commit i

def setServerStatusUp : Backend ι L :=
  let s := b.srv i
  if !s.lbStatusChanged then b
  else if !s.willbeUsable then b.commit i
  else if s.currentlyUsable then (updateBackendWeight b).commit i
  else
    let b := { b with px := (a.addWeight b.px s).takeServer b.srv i }
    (updateBackendWeight (b.setLb (a.link b i))).commit i

/-- `update_server_eweight`. -/
def updateServerWeight : Backend ι L :=
  let s := b.srv i
  if !s.lbStatusChanged then b
  else if !s.currentlyUsable && !s.willbeUsable then b.commit i
  else if !s.currentlyUsable && s.willbeUsable then setServerStatusUp a b i
  else if s.currentlyUsable && !s.willbeUsable then setServerStatusDown a b i
  else
    let b := { b with px := a.chgWeight b.px s }
    (updateBackendWeight (b.setLb (a.relink b i))).commit i

end Callbacks

/-! ### Balanced and pending backends -/

/-- The committed standings of the servers of a backend. -/
def Backend.committed [DecidableEq ι] (b : Backend ι L) (i : ι) : Standing :=
  if i ∈ b.px.srvs then (b.srv i).curStanding else none

/-- An algorithm keeps `Synced`, a relation between the committed standings, its
own data and the two totals of weights, and its accounting is the plain one. -/
structure LbOps.Lawful [DecidableEq ι] (a : LbOps ι L)
    (Synced : (ι → Standing) → L → UInt32 → UInt32 → Prop) : Prop where
  subWeight : ∀ px s st, Synced st px.lb px.totWact px.totWbck →
    ∃ lb, a.subWeight px s = (px.subWeight s).withLb lb ∧
      Synced st lb (px.subWeight s).totWact (px.subWeight s).totWbck
  addWeight : ∀ px s st, Synced st px.lb px.totWact px.totWbck →
    ∃ lb, a.addWeight px s = (px.addWeight s).withLb lb ∧
      Synced st lb (px.addWeight s).totWact (px.addWeight s).totWbck
  chgWeight : ∀ px s st, Synced st px.lb px.totWact px.totWbck →
    ∃ lb, a.chgWeight px s = (px.chgWeight s).withLb lb ∧
      Synced st lb (px.chgWeight s).totWact (px.chgWeight s).totWbck
  unlink : ∀ b i st wact wbck, Synced st b.px.lb wact wbck →
    Synced (Function.update st i none) (a.unlink b i) wact wbck
  link : ∀ b i st wact wbck, Synced st b.px.lb wact wbck → st i = none →
    (b.srv i).willbeUsable = true →
    Synced (Function.update st i (b.srv i).nextStanding) (a.link b i) wact wbck
  relink : ∀ b i st wact wbck, Synced st b.px.lb wact wbck → (b.srv i).willbeUsable = true →
    Synced (Function.update st i (b.srv i).nextStanding) (a.relink b i) wact wbck

section Invariants

variable [DecidableEq ι] (Synced : (ι → Standing) → L → UInt32 → UInt32 → Prop)

/-- Only server `i` of the list may have something pending; the totals are
those of the committed values. -/
structure Pending (l : List ι) (b : Backend ι L) (i : ι) : Prop where
  srvs : b.px.srvs = l
  tally : b.px.tally = census b.curStandings b.px.useAllBk l
  settled : ∀ j ∈ l, j ≠ i → (b.srv j).Settled
  synced : Synced b.committed b.px.lb b.px.totWact b.px.totWbck

/-- Nothing that matters is pending, and the totals are those of a recount. -/
structure Balanced (l : List ι) (b : Backend ι L) : Prop where
  srvs : b.px.srvs = l
  tally : b.px.tally = census b.nextStandings b.px.useAllBk l
  settled : ∀ j ∈ l, (b.srv j).Settled
  synced : Synced b.committed b.px.lb b.px.totWact b.px.totWbck

end Invariants

/-! ### How the census moves -/

theorem census_congr {st st' : ι → Standing} {l : List ι} {useAllBk : Bool}
    (h : ∀ j ∈ l, st' j = st j) : census st' useAllBk l = census st useAllBk l := by
  have hcount (backup : Bool) : headcount st' backup l = headcount st backup l := by
    rw [headcount, headcount, List.map_congr_left fun j hj => by rw [h j hj]]
  have hweight (backup : Bool) : weight st' backup l = weight st backup l := by
    rw [weight, weight, List.map_congr_left fun j hj => by rw [h j hj]]
  have hfirst : firstBackup st' useAllBk l = firstBackup st useAllBk l := by
    rw [firstBackup, firstBackup, List.find?_congr fun j hj => by rw [h j hj]]
  have hfbck : ∀ i, firstBackup st useAllBk l = some i → st' i = st i := by
    intro i hi
    rw [firstBackup] at hi
    split_ifs at hi
    exact h i (List.mem_of_find?_eq_some hi)
  unfold census
  rw [hcount, hcount, hweight, hweight, hfirst]
  rcases hf : firstBackup st useAllBk l with - | i
  · rfl
  · simp only [hfbck i hf]

theorem counted_of_tally {px : Proxy ι L} {st : ι → Standing} {l : List ι}
    (h : px.tally = census st px.useAllBk l) : Counted px st l :=
  ⟨congrArg Tally.srvAct h, congrArg Tally.srvBck h, congrArg Tally.totWact h,
    congrArg Tally.totWbck h, congrArg Tally.fbck h⟩

theorem isBackup_nextStanding (s : Server) :
    isBackup s.nextStanding = (s.backup && s.willbeUsable) := by
  rcases hu : s.willbeUsable with - | - <;> simp [Server.nextStanding, hu, isBackup]

section Moves

variable [DecidableEq ι] {st st' : ι → Standing} {l : List ι} {i : ι}

theorem headcount_change (hn : l.Nodup) (hi : i ∈ l) (h : ∀ j ∈ l, j ≠ i → st' j = st j)
    (backup : Bool) :
    headcount st' backup l
      = headcount st backup l - one backup (st i) + one backup (st' i) :=
  sum_map_change hn hi fun j hj hne => by rw [h j hj hne]

theorem weight_change (hn : l.Nodup) (hi : i ∈ l) (h : ∀ j ∈ l, j ≠ i → st' j = st j)
    (backup : Bool) :
    weight st' backup l = weight st backup l - wgt backup (st i) + wgt backup (st' i) :=
  sum_map_change hn hi fun j hj hne => by rw [h j hj hne]

omit [DecidableEq ι] in
theorem firstBackup_of_same (h : ∀ j ∈ l, j ≠ i → st' j = st j)
    (hi : isBackup (st' i) = isBackup (st i)) (useAllBk : Bool) :
    firstBackup st' useAllBk l = firstBackup st useAllBk l := by
  have hsame : ∀ j ∈ l, isBackup (st' j) = isBackup (st j) := by
    intro j hj
    by_cases hne : j = i
    · rw [hne, hi]
    · rw [h j hj hne]
  rw [firstBackup, firstBackup, List.find?_congr hsame]

theorem firstBackup_of_lost (hn : l.Nodup) (hi : i ∈ l) (h : ∀ j ∈ l, j ≠ i → st' j = st j)
    (hold : isBackup (st i) = true) (hnew : isBackup (st' i) = false) (useAllBk : Bool) :
    firstBackup st' useAllBk l
      = if firstBackup st useAllBk l = some i then (after l i).find? fun j => isBackup (st' j)
        else firstBackup st useAllBk l := by
  have hother : ∀ j ∈ l, j ≠ i → isBackup (st' j) = isBackup (st j) :=
    fun j hj hne => by rw [h j hj hne]
  rcases useAllBk with - | -
  · simp only [firstBackup, Bool.false_eq_true, if_false]
    split_ifs with hf
    · exact find?_of_first_lost hn hf hother hnew
    · rcases hk : l.find? (fun j => isBackup (st j)) with - | k
      · exact absurd hold (List.find?_eq_none.mp hk i hi)
      · have hki : k ≠ i := fun hki => hf (by rw [hk, hki])
        exact find?_of_other_lost hk hki hother hnew
  · simp [firstBackup]

theorem firstBackup_of_gained (hn : l.Nodup) (hi : i ∈ l) (h : ∀ j ∈ l, j ≠ i → st' j = st j)
    (hold : isBackup (st i) = false) (hnew : isBackup (st' i) = true) (useAllBk : Bool) :
    firstBackup st' useAllBk l
      = if useAllBk then firstBackup st useAllBk l
        else match firstBackup st useAllBk l with
          | none => some i
          | some k => if k ∈ after l i then some i else some k := by
  have hother : ∀ j ∈ l, j ≠ i → isBackup (st' j) = isBackup (st j) :=
    fun j hj hne => by rw [h j hj hne]
  rcases useAllBk with - | -
  · simp only [firstBackup, Bool.false_eq_true, if_false]
    rcases hk : l.find? (fun j => isBackup (st j)) with - | k
    · exact find?_of_none_gained hi hk hother hnew
    · have hki : k ≠ i := by
        rintro rfl
        have hk' := List.find?_some hk
        simp only [hold, Bool.false_eq_true] at hk'
      exact find?_of_gained hn hi hk hki hother hnew
  · simp [firstBackup]

variable {px : Proxy ι L}

/-- A server that is counted leaves. -/
theorem Counted.dropServer {srv : ι → Server} (h : Counted px st px.srvs) (hi : i ∈ px.srvs)
    (hst : ∀ j ∈ px.srvs, j ≠ i → st' j = st j)
    (hold : st i = some ((srv i).backup, (srv i).curEweight))
    (hnew : st' i = none) (hnext : ∀ j, st' j = (srv j).nextStanding) :
    Counted ((px.subWeight (srv i)).dropServer srv i) st' px.srvs := by
  have hcount := headcount_change px.nodup hi hst
  have hweight := weight_change px.nodup hi hst
  refine ⟨?_, ?_, ?_, ?_, ?_⟩
  · cases hb : (srv i).backup <;>
      simp [Proxy.subWeight, Proxy.dropServer, hb, hcount, hold, hnew, one, h.srvAct]
  · cases hb : (srv i).backup <;>
      simp [Proxy.subWeight, Proxy.dropServer, hb, hcount, hold, hnew, one, h.srvBck]
  · cases hb : (srv i).backup <;>
      simp [Proxy.subWeight, Proxy.dropServer, hb, hweight, hold, hnew, wgt, h.totWact]
  · cases hb : (srv i).backup <;>
      simp [Proxy.subWeight, Proxy.dropServer, hb, hweight, hold, hnew, wgt, h.totWbck]
  rcases hb : (srv i).backup with - | - <;> rw [hb] at hold
  · have hsame : isBackup (st' i) = isBackup (st i) := by
      rw [hold, hnew]
      rfl
    simpa [Proxy.subWeight, Proxy.dropServer, hb, firstBackup_of_same hst hsame] using h.fbck
  · -- the search behind the server that leaves finds the next one
    have hsearch : (fun j => (srv j).backup && (srv j).willbeUsable)
        = fun j => isBackup (st' j) := by
      funext j
      rw [hnext, isBackup_nextStanding]
    have hlost := firstBackup_of_lost px.nodup hi hst (by rw [hold]; rfl) (by rw [hnew]; rfl)
      px.useAllBk
    rw [← h.fbck] at hlost
    simp only [Proxy.subWeight, Proxy.dropServer, hb, if_true, hsearch]
    exact hlost.symm

theorem Counted.takeServer {srv : ι → Server} (h : Counted px st px.srvs) (hi : i ∈ px.srvs)
    (hst : ∀ j ∈ px.srvs, j ≠ i → st' j = st j) (hold : st i = none)
    (hnew : st' i = some ((srv i).backup, (srv i).nextEweight)) :
    Counted ((px.addWeight (srv i)).takeServer srv i) st' px.srvs := by
  have hcount := headcount_change px.nodup hi hst
  have hweight := weight_change px.nodup hi hst
  refine ⟨?_, ?_, ?_, ?_, ?_⟩
  · cases hb : (srv i).backup <;>
      simp [Proxy.addWeight, Proxy.takeServer, hb, hcount, hold, hnew, one, h.srvAct]
  · cases hb : (srv i).backup <;>
      simp [Proxy.addWeight, Proxy.takeServer, hb, hcount, hold, hnew, one, h.srvBck]
  · cases hb : (srv i).backup <;>
      simp [Proxy.addWeight, Proxy.takeServer, hb, hweight, hold, hnew, wgt, h.totWact]
  · cases hb : (srv i).backup <;>
      simp [Proxy.addWeight, Proxy.takeServer, hb, hweight, hold, hnew, wgt, h.totWbck]
  rcases hb : (srv i).backup with - | - <;> rw [hb] at hnew
  · have hsame : isBackup (st' i) = isBackup (st i) := by
      rw [hold, hnew]
      rfl
    simpa [Proxy.addWeight, Proxy.takeServer, hb, firstBackup_of_same hst hsame] using h.fbck
  · have hgained := firstBackup_of_gained px.nodup hi hst (by rw [hold]; rfl) (by rw [hnew]; rfl)
      px.useAllBk
    rw [← h.fbck] at hgained
    simp only [Proxy.addWeight, Proxy.takeServer, hb, if_true]
    exact hgained.symm

theorem Counted.chgWeight {s : Server} (h : Counted px st px.srvs) (hi : i ∈ px.srvs)
    (hst : ∀ j ∈ px.srvs, j ≠ i → st' j = st j) (hold : st i = some (s.backup, s.curEweight))
    (hnew : st' i = some (s.backup, s.nextEweight)) :
    Counted (px.chgWeight s) st' px.srvs := by
  have hcount := headcount_change px.nodup hi hst
  have hweight := weight_change px.nodup hi hst
  have hsame : isBackup (st' i) = isBackup (st i) := by
    rw [hold, hnew]
    rfl
  have hmove (w c n : UInt32) : w - c + n = w + (n - c) := by abel
  rcases hb : s.backup with - | -
  all_goals
    rw [hb] at hold hnew
    refine ⟨?_, ?_, ?_, ?_, ?_⟩
    · simp [Proxy.chgWeight, hb, hcount, hold, hnew, one, h.srvAct]
    · simp [Proxy.chgWeight, hb, hcount, hold, hnew, one, h.srvBck]
    · simp [Proxy.chgWeight, hb, hweight, hold, hnew, wgt, h.totWact, hmove]
    · simp [Proxy.chgWeight, hb, hweight, hold, hnew, wgt, h.totWbck, hmove]
    · simpa [Proxy.chgWeight, hb, firstBackup_of_same hst hsame] using h.fbck

end Moves

/-! ### What a callback does to the totals -/

section Accounting

variable [DecidableEq ι] {a : LbOps ι L} {Synced : (ι → Standing) → L → UInt32 → UInt32 → Prop}
  {l : List ι} {b : Backend ι L} {i : ι}

theorem nextStandings_commit (b : Backend ι L) (i : ι) :
    (b.commit i).nextStandings = b.nextStandings := by
  funext j
  by_cases hj : j = i
  · subst hj
    simp [Backend.nextStandings, Backend.commit]
  · simp [Backend.nextStandings, Backend.commit, Backend.updSrv_srv_of_ne _ _ hj]

theorem settled_commit (h : ∀ j ∈ l, j ≠ i → (b.srv j).Settled) :
    ∀ j ∈ l, ((b.commit i).srv j).Settled := by
  intro j hmem
  by_cases hj : j = i
  · subst hj
    rw [Backend.commit, Backend.updSrv_srv_self]
    exact Server.settled_commit _
  · rw [Backend.commit, Backend.updSrv_srv_of_ne _ _ hj]
    exact h j hmem hj

theorem committed_of_mem (hi : i ∈ b.px.srvs) : b.committed i = (b.srv i).curStanding := if_pos hi

theorem committed_commit (hi : i ∈ b.px.srvs) :
    (b.commit i).committed = Function.update b.committed i (b.srv i).nextStanding := by
  funext j
  by_cases hj : j = i
  · subst hj
    rw [Function.update_self, committed_of_mem (by exact hi), Backend.commit,
      Backend.updSrv_srv_self]
    rfl
  · rw [Function.update_of_ne hj, Backend.committed, Backend.commit,
      Backend.updSrv_srv_of_ne _ _ hj]
    rfl

theorem Pending.balanced (h : Pending Synced l b i) (hi : (b.srv i).Settled) :
    Balanced Synced l b := by
  have hall : ∀ j ∈ l, (b.srv j).Settled := by
    intro j hmem
    by_cases hj : j = i
    · rw [hj]
      exact hi
    · exact h.settled j hmem hj
  exact ⟨h.srvs, h.tally.trans (census_congr hall), hall, h.synced⟩

theorem Balanced.commit (h : Balanced Synced l b) (hi : i ∈ l) :
    Balanced Synced l (b.commit i) := by
  obtain rfl := h.srvs
  refine ⟨rfl, ?_, settled_commit fun j hmem _ => h.settled j hmem, ?_⟩
  · rw [nextStandings_commit]
    exact h.tally
  · rw [committed_commit hi, ← h.settled i hi, ← committed_of_mem hi, Function.update_eq_self]
    exact h.synced

theorem balanced_commit (hsrvs : b.px.srvs = l) (hcount : Counted b.px b.nextStandings l)
    (hi : i ∈ l) (hsettled : ∀ j ∈ l, j ≠ i → (b.srv j).Settled)
    (hsynced : Synced (Function.update b.committed i (b.srv i).nextStanding) b.px.lb b.px.totWact
      b.px.totWbck) :
    Balanced Synced l ((updateBackendWeight b).commit i) := by
  subst hsrvs
  have htally := tally_updateBackendWeight hcount
  obtain ⟨w, u, he⟩ := updateBackendWeight_eq b
  rw [he] at htally ⊢
  refine ⟨rfl, ?_, settled_commit hsettled, ?_⟩
  · rw [nextStandings_commit]
    exact htally
  · rw [committed_commit (by exact hi)]
    exact hsynced

theorem balanced_move {px : Proxy ι L} {lb : L} (hsrvs : px.srvs = l)
    (hcount : Counted px b.nextStandings l) (hb : b.px.srvs = l) (hi : i ∈ l)
    (hsettled : ∀ j ∈ l, j ≠ i → (b.srv j).Settled)
    (hsynced : Synced (Function.update b.committed i (b.srv i).nextStanding) lb px.totWact
      px.totWbck) :
    Balanced Synced l
      ((updateBackendWeight (({ b with px := px } : Backend ι L).setLb lb)).commit i) := by
  have hcomm : (({ b with px := px } : Backend ι L).setLb lb).committed = b.committed := by
    funext j
    rw [Backend.committed, Backend.committed, hb, ← hsrvs]
    rfl
  refine balanced_commit hsrvs (hcount.withLb lb) hi hsettled ?_
  rw [hcomm]
  exact hsynced

/-- **The server will not be usable**: the callback for servers that go down
leaves the backend balanced. -/
theorem Pending.setServerStatusDown (ha : a.Lawful Synced) (h : Pending Synced l b i)
    (hi : i ∈ l) (hw : (b.srv i).willbeUsable = false) :
    Balanced Synced l (setServerStatusDown a b i) := by
  obtain rfl := h.srvs
  have hst : ∀ j ∈ b.px.srvs, j ≠ i → b.nextStandings j = b.curStandings j :=
    fun j hmem hj => (h.settled j hmem hj).symm
  have hnew : b.nextStandings i = none := by
    simp [Backend.nextStandings, Server.nextStanding, hw]
  unfold SmartHAProxy.setServerStatusDown
  rcases hch : (b.srv i).lbStatusChanged with - | -
  · simpa [hch] using h.balanced (Server.settled_of_not_changed hch)
  rcases hc : (b.srv i).currentlyUsable with - | -
  · have hb := h.balanced (Server.settled_of_not_usable hc hw)
    have hsynced : Synced (Function.update b.committed i (b.srv i).nextStanding) b.px.lb
        b.px.totWact b.px.totWbck := by
      rw [← hb.settled i hi, ← committed_of_mem hi, Function.update_eq_self]
      exact h.synced
    simpa [hch, hc, hw] using
      balanced_commit rfl (counted_of_tally hb.tally) hi h.settled hsynced
  · obtain ⟨lb, hsub, hsynced⟩ := ha.subWeight b.px (b.srv i) _ h.synced
    have hold : b.curStandings i = some ((b.srv i).backup, (b.srv i).curEweight) := by
      simp [Backend.curStandings, Server.curStanding, hc]
    have hcount := (counted_of_tally h.tally).dropServer hi hst hold hnew fun _ => rfl
    obtain ⟨hdrop, hsrvs, hwact, hwbck⟩ :=
      (b.px.subWeight (b.srv i)).dropServer_frame b.srv i lb
    simp only [hch, hc, hw, Bool.not_true, Bool.false_eq_true, if_false]
    rw [hsub, hdrop]
    refine balanced_move (hsrvs.trans (b.px.subWeight_srvs _)) (hcount.withLb lb) rfl hi
      h.settled ?_
    rw [show (b.srv i).nextStanding = none from hnew]
    apply ha.unlink
    show Synced _ lb ((b.px.subWeight (b.srv i)).dropServer b.srv i).totWact
      ((b.px.subWeight (b.srv i)).dropServer b.srv i).totWbck
    rw [hwact, hwbck]
    exact hsynced

/-- **The server was not usable and will be**: the callback for servers that
come up leaves the backend balanced. -/
theorem Pending.setServerStatusUp (ha : a.Lawful Synced) (h : Pending Synced l b i)
    (hi : i ∈ l) (hc : (b.srv i).currentlyUsable = false)
    (hw : (b.srv i).willbeUsable = true) :
    Balanced Synced l (setServerStatusUp a b i) := by
  obtain rfl := h.srvs
  have hst : ∀ j ∈ b.px.srvs, j ≠ i → b.nextStandings j = b.curStandings j :=
    fun j hmem hj => (h.settled j hmem hj).symm
  have hold : b.curStandings i = none := by
    simp [Backend.curStandings, Server.curStanding, hc]
  have hnew : b.nextStandings i = some ((b.srv i).backup, (b.srv i).nextEweight) := by
    simp [Backend.nextStandings, Server.nextStanding, hw]
  unfold SmartHAProxy.setServerStatusUp
  rcases hch : (b.srv i).lbStatusChanged with - | -
  · simpa [hch] using h.balanced (Server.settled_of_not_changed hch)
  · obtain ⟨lb, hadd, hsynced⟩ := ha.addWeight b.px (b.srv i) _ h.synced
    have hcount := (counted_of_tally h.tally).takeServer hi hst hold hnew
    obtain ⟨htake, hsrvs, hwact, hwbck⟩ :=
      (b.px.addWeight (b.srv i)).takeServer_frame b.srv i lb
    simp only [hch, hc, hw, Bool.not_true, Bool.false_eq_true, if_false]
    rw [hadd, htake]
    refine balanced_move (hsrvs.trans (b.px.addWeight_srvs _)) (hcount.withLb lb) rfl hi
      h.settled ?_
    refine ha.link ⟨b.srv, ((b.px.addWeight (b.srv i)).takeServer b.srv i).withLb lb⟩ i _ _ _ ?_
      ((committed_of_mem hi).trans hold) hw
    show Synced _ lb ((b.px.addWeight (b.srv i)).takeServer b.srv i).totWact
      ((b.px.addWeight (b.srv i)).takeServer b.srv i).totWbck
    rw [hwact, hwbck]
    exact hsynced

/-- **Whatever is pending**: the callback for weight changes leaves the
backend balanced. -/
theorem Pending.updateServerWeight (ha : a.Lawful Synced) (h : Pending Synced l b i)
    (hi : i ∈ l) : Balanced Synced l (updateServerWeight a b i) := by
  obtain rfl := h.srvs
  unfold SmartHAProxy.updateServerWeight
  rcases hch : (b.srv i).lbStatusChanged with - | -
  · simpa [hch] using h.balanced (Server.settled_of_not_changed hch)
  rcases hc : (b.srv i).currentlyUsable with - | - <;>
    rcases hw : (b.srv i).willbeUsable with - | -
  · -- the server remains down: its values are committed
    simpa [hch, hc, hw] using
      (h.balanced (Server.settled_of_not_usable hc hw)).commit hi
  · simpa [hch, hc, hw] using h.setServerStatusUp ha hi hc hw
  · simpa [hch, hc, hw] using h.setServerStatusDown ha hi hw
  · obtain ⟨lb, hchg, hsynced⟩ := ha.chgWeight b.px (b.srv i) _ h.synced
    have hold : b.curStandings i = some ((b.srv i).backup, (b.srv i).curEweight) := by
      simp [Backend.curStandings, Server.curStanding, hc]
    have hnew : b.nextStandings i = some ((b.srv i).backup, (b.srv i).nextEweight) := by
      simp [Backend.nextStandings, Server.nextStanding, hw]
    have hcount := (counted_of_tally h.tally).chgWeight hi
      (fun j hmem hj => (h.settled j hmem hj).symm) hold hnew
    simp only [hch, hc, hw, Bool.not_true, Bool.false_eq_true, Bool.and_false, Bool.false_and,
      if_false]
    rw [hchg]
    refine balanced_move (b.px.chgWeight_srvs _) (hcount.withLb lb) rfl hi h.settled ?_
    exact ha.relink ⟨b.srv, (b.px.chgWeight (b.srv i)).withLb lb⟩ i _ _ _ hsynced hw

/-! ### The initial totals -/

theorem settled_foldl_initEweight (l : List ι) (b : Backend ι L) {j : ι}
    (h : j ∈ l ∨ (b.srv j).Settled) :
    ((l.foldl initEweight b).srv j).Settled := by
  induction l generalizing b with
  | nil => simpa using h
  | cons i l ih =>
    apply ih
    by_cases hj : j = i
    · subst hj
      right
      rw [initEweight, Backend.updSrv_srv_self]
      exact Server.settled_commit _
    · rcases h with h | h
      · left
        exact (List.mem_cons.mp h).resolve_left hj
      · right
        rwa [initEweight, Backend.updSrv_srv_of_ne _ _ hj]

theorem foldl_initEweight_px (l : List ι) (b : Backend ι L) :
    (l.foldl initEweight b).px = b.px := by
  induction l generalizing b with
  | nil => rfl
  | cons i l ih => exact ih _

/-- **Every algorithm starts with balanced totals.** -/
theorem balanced_init (b : Backend ι L) :
    Balanced (fun _ _ _ _ => True) b.px.srvs
      (updateBackendWeight (recountServers b.initEweights)) := by
  have hpx : b.initEweights.px.srvs = b.px.srvs := by
    rw [Backend.initEweights, foldl_initEweight_px]
  have hframe := onlyCounts_recountServers b.initEweights
  have htally := tally_recountServers b.initEweights
  obtain ⟨w, u, he⟩ := updateBackendWeight_eq (recountServers b.initEweights)
  rw [he] at htally ⊢
  refine ⟨hframe.srvs.trans hpx, ?_, ?_, trivial⟩
  · rw [← hframe.nextStandings, ← hframe.useAllBk, hpx] at htally
    exact htally
  · intro j hj
    show (recountServers b.initEweights).curStandings j
      = (recountServers b.initEweights).nextStandings j
    rw [hframe.curStandings, hframe.nextStandings]
    exact settled_foldl_initEweight _ _ (Or.inl hj)

theorem Balanced.setLb {L' : Type*} {Synced' : (ι → Standing) → L' → UInt32 → UInt32 → Prop}
    {lb : L'} (h : Balanced Synced l b) (hs : Synced' b.committed lb b.px.totWact b.px.totWbck) :
    Balanced Synced' l (b.setLb lb) :=
  ⟨h.srvs, h.tally, h.settled, hs⟩

end Accounting

end SmartHAProxy
