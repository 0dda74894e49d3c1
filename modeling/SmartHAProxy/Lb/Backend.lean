/-
Backends and their accounting (haproxy/backend-t.h, backend.c).

A backend is a proxy with its list of servers.  The proxy keeps totals about
the servers that requests may be sent to: how many of them are active or
backup, their weights, and the first backup server in configurations where
only one is used.  `recountServers` and `updateBackendWeight` compute them
from scratch.  `census` says in one line each what they compute, and
`tally_recountServers` is the proof.

The state that belongs to one load balancing algorithm is the parameter `L`
of the proxy.
-/
import SmartHAProxy.Server.Basic
import SmartHAProxy.Lib.EbTree
import SmartHAProxy.Lib.Roster
import Mathlib.Algebra.Order.BigOperators.Group.List
import Mathlib.Data.UInt

namespace SmartHAProxy

/-- `struct proxy` with its `lbprm`.  `srvs` is the chain of servers that
starts at `px->srv` and follows `next`. -/
structure Proxy (ι L : Type*) where
  srvs : List ι
  nodup : srvs.Nodup
  /-- `options & PR_O_USE_ALL_BK` -/
  useAllBk : Bool
  /-- `lbprm.algo & BE_LB_PROP_DYN` -/
  propDyn : Bool
  srvAct : ℤ
  srvBck : ℤ
  totWact : UInt32
  totWbck : UInt32
  totWeight : UInt32
  totUsed : ℤ
  fbck : Option ι
  wmult : UInt32
  wdiv : UInt32
  hashBalanceFactor : ℤ
  served : ℤ
  beconn : UInt32
  fullconn : UInt32
  lastChange : ℤ
  downTime : ℤ
  downTrans : ℕ
  /-- the union of `lbprm`, together with the fields of the servers that only
  the algorithm in use reads -/
  lb : L

/-! The lists of servers of small examples. -/

theorem nodup_unit : [()].Nodup := by decide

theorem nodup_falseTrue : [false, true].Nodup := by decide

/-- A proxy that has been configured but not started. -/
def newProxy {ι : Type*} (srvs : List ι) (h : srvs.Nodup) : Proxy ι Unit where
  srvs := srvs
  nodup := h
  useAllBk := false
  propDyn := true
  srvAct := 0
  srvBck := 0
  totWact := 0
  totWbck := 0
  totWeight := 0
  totUsed := 0
  fbck := none
  wmult := 1
  wdiv := 0
  hashBalanceFactor := 0
  served := 0
  beconn := 0
  fullconn := 0
  lastChange := 0
  downTime := 0
  downTrans := 0
  lb := ()

/-- A proxy and the servers it refers to. -/
structure Backend (ι L : Type*) where
  srv : ι → Server
  px : Proxy ι L

variable {ι L L' : Type*}
variable {st : ι → Standing} {l : List ι}

def Proxy.withLb (px : Proxy ι L) (lb : L') : Proxy ι L' := { px with lb := lb }

namespace Backend

def updSrv [DecidableEq ι] (b : Backend ι L) (i : ι) (f : Server → Server) : Backend ι L :=
  { b with srv := Function.update b.srv i (f (b.srv i)) }

def setLb (b : Backend ι L) (lb : L') : Backend ι L' := { srv := b.srv, px := b.px.withLb lb }

variable [DecidableEq ι]

@[simp] theorem updSrv_px (b : Backend ι L) (i : ι) (f : Server → Server) :
    (b.updSrv i f).px = b.px := rfl

@[simp] theorem updSrv_srv_self (b : Backend ι L) (i : ι) (f : Server → Server) :
    (b.updSrv i f).srv i = f (b.srv i) := Function.update_self ..

theorem updSrv_srv_of_ne (b : Backend ι L) {i j : ι} (f : Server → Server) (h : j ≠ i) :
    (b.updSrv i f).srv j = b.srv j := Function.update_of_ne h ..

end Backend

/-! ### Counting from scratch -/

/-- One turn of the loop of `recount_servers`. -/
def recountServer [DecidableEq ι] (b : Backend ι L) (i : ι) : Backend ι L :=
  if !(b.srv i).willbeUsable then b
  else if (b.srv i).backup then
    let fbck := if b.px.srvBck = 0 ∧ !b.px.useAllBk then some i else b.px.fbck
    { b.updSrv i fun s => { s with cumulativeWeight := b.px.totWbck } with
      px := { b.px with
        fbck := fbck
        srvBck := b.px.srvBck + 1
        totWbck := b.px.totWbck + (b.srv i).nextEweight } }
  else
    { b.updSrv i fun s => { s with cumulativeWeight := b.px.totWact } with
      px := { b.px with
        srvAct := b.px.srvAct + 1
        totWact := b.px.totWact + (b.srv i).nextEweight } }

/-- The totals before the loop of `recount_servers`. -/
def recountStart (b : Backend ι L) : Backend ι L :=
  { b with
    px := { b.px with
      srvAct := 0
      srvBck := 0
      totWact := 0
      totWbck := 0
      fbck := none } }

def recountServers [DecidableEq ι] (b : Backend ι L) : Backend ι L :=
  b.px.srvs.foldl recountServer (recountStart b)

def updateBackendWeight (b : Backend ι L) : Backend ι L :=
  if b.px.srvAct ≠ 0 then
    { b with px := { b.px with totWeight := b.px.totWact, totUsed := b.px.srvAct } }
  else match b.px.fbck with
    | some i => { b with px := { b.px with totWeight := (b.srv i).nextEweight, totUsed := 1 } }
    | none => { b with px := { b.px with totWeight := b.px.totWbck, totUsed := b.px.srvBck } }

/-- The effective weight that the `init` functions of the algorithms give to a
server, committed at once. -/
def initEweight [DecidableEq ι] (b : Backend ι L) (i : ι) : Backend ι L :=
  b.updSrv i fun s =>
    { s with
      nextEweight := (s.uweight * b.px.wdiv + b.px.wmult - 1) / b.px.wmult }.lbCommitStatus

/-- The first loop of the `init` functions. -/
def Backend.initEweights [DecidableEq ι] (b : Backend ι L) : Backend ι L :=
  b.px.srvs.foldl initEweight { b with px := { b.px with wdiv := beWeightScale } }

/-- The group whose tree a request is dispatched from: the active servers, else
the backup servers, unless only the first of these is used. -/
def Proxy.groupInUse (px : Proxy ι L) : Option Bool :=
  if px.srvAct ≠ 0 then some false
  else if px.fbck.isSome then none
  else if px.srvBck ≠ 0 then some true
  else none

/-- `srv_dynamic_maxconn`, at date `now`. -/
def srvDynamicMaxconn (px : Proxy ι L) (now : ℤ) (s : Server) : UInt32 :=
  let max₀ :=
    if px.beconn ≥ px.fullconn then s.maxconn
    else if s.minconn = s.maxconn then s.maxconn
    else max s.minconn (px.beconn * s.maxconn / px.fullconn)
  if s.curState = .starting ∧ now < s.lastChange + s.slowstart ∧ now ≥ s.lastChange then
    let ratio := UInt32.ofInt ((100 * (now - s.lastChange)).tdiv s.slowstart)
    max 1 (max₀ * ratio / 100)
  else max₀

def setBackendDown (now : ℤ) (b : Backend ι L) : Backend ι L :=
  { b with px := { b.px with lastChange := now, downTrans := b.px.downTrans + 1 } }

/-! ### The census -/

structure Tally (ι : Type*) where
  srvAct : ℤ
  srvBck : ℤ
  totWact : UInt32
  totWbck : UInt32
  fbck : Option ι
  totWeight : UInt32
  totUsed : ℤ
  deriving DecidableEq, Repr

def Proxy.tally (px : Proxy ι L) : Tally ι where
  srvAct := px.srvAct
  srvBck := px.srvBck
  totWact := px.totWact
  totWbck := px.totWbck
  fbck := px.fbck
  totWeight := px.totWeight
  totUsed := px.totUsed

/-- What a usable server of group `backup` adds to the number of servers. -/
def one (backup : Bool) : Standing → ℤ
  | some (b, _) => if b = backup then 1 else 0
  | none => 0

/-- What a usable server of group `backup` adds to the weight. -/
def wgt (backup : Bool) : Standing → UInt32
  | some (b, w) => if b = backup then w else 0
  | none => 0

def isBackup : Standing → Bool
  | some (b, _) => b
  | none => false

/-- The number of usable servers of a group. -/
def headcount (st : ι → Standing) (backup : Bool) (l : List ι) : ℤ :=
  (l.map fun i => one backup (st i)).sum

def weight (st : ι → Standing) (backup : Bool) (l : List ι) : UInt32 :=
  (l.map fun i => wgt backup (st i)).sum

/-- The first usable backup server, where only one is to be used. -/
def firstBackup (st : ι → Standing) (useAllBk : Bool) (l : List ι) : Option ι :=
  if useAllBk then none else l.find? fun i => isBackup (st i)

/-- What the totals mean, given the standing of each server. -/
def census (st : ι → Standing) (useAllBk : Bool) (l : List ι) : Tally ι :=
  let act := headcount st false l
  let bck := headcount st true l
  let fbck := firstBackup st useAllBk l
  { srvAct := act
    srvBck := bck
    totWact := weight st false l
    totWbck := weight st true l
    fbck := fbck
    totWeight :=
      if act ≠ 0 then weight st false l
      else match fbck with
        | some i => wgt true (st i)
        | none => weight st true l
    totUsed := if act ≠ 0 then act else if fbck.isSome then 1 else bck }

def Backend.curStandings (b : Backend ι L) (i : ι) : Standing :=
  (b.srv i).curStanding

/-- The standings once everything pending is committed. -/
def Backend.nextStandings (b : Backend ι L) (i : ι) : Standing :=
  (b.srv i).nextStanding

/-- The totals that are kept one by one are those of the servers of `l`. -/
structure Counted (px : Proxy ι L) (st : ι → Standing) (l : List ι) : Prop where
  srvAct : px.srvAct = headcount st false l
  srvBck : px.srvBck = headcount st true l
  totWact : px.totWact = weight st false l
  totWbck : px.totWbck = weight st true l
  fbck : px.fbck = firstBackup st px.useAllBk l

theorem Counted.withLb {px : Proxy ι L} (h : Counted px st l) (lb : L') :
    Counted (px.withLb lb) st l :=
  ⟨h.srvAct, h.srvBck, h.totWact, h.totWbck, h.fbck⟩

/-! ### What counting leaves alone -/

/-- `c` is `b` up to the totals and the cumulative weights. -/
structure OnlyCounts (b c : Backend ι L) : Prop where
  srv : ∀ i, c.srv i = { b.srv i with cumulativeWeight := (c.srv i).cumulativeWeight }
  srvs : c.px.srvs = b.px.srvs
  useAllBk : c.px.useAllBk = b.px.useAllBk
  lb : c.px.lb = b.px.lb

namespace OnlyCounts

variable {b c d : Backend ι L}

theorem refl (b : Backend ι L) : OnlyCounts b b := ⟨fun _ => rfl, rfl, rfl, rfl⟩

theorem trans (h : OnlyCounts b c) (h' : OnlyCounts c d) : OnlyCounts b d where
  srv i := by rw [h'.srv i, h.srv i]
  srvs := h'.srvs.trans h.srvs
  useAllBk := h'.useAllBk.trans h.useAllBk
  lb := h'.lb.trans h.lb

theorem nextStandings (h : OnlyCounts b c) : c.nextStandings = b.nextStandings := by
  funext i
  rw [Backend.nextStandings, h.srv i]
  rfl

theorem curStandings (h : OnlyCounts b c) : c.curStandings = b.curStandings := by
  funext i
  rw [Backend.curStandings, h.srv i]
  rfl

end OnlyCounts

/-! ### What `updateBackendWeight` computes -/

theorem updateBackendWeight_eq (b : Backend ι L) :
    ∃ w u, updateBackendWeight b
      = { b with px := { b.px with totWeight := w, totUsed := u } } := by
  unfold updateBackendWeight
  split_ifs
  · exact ⟨_, _, rfl⟩
  · split <;> exact ⟨_, _, rfl⟩

theorem updateBackendWeight_srv (b : Backend ι L) : (updateBackendWeight b).srv = b.srv := by
  obtain ⟨w, u, he⟩ := updateBackendWeight_eq b
  rw [he]

theorem nextStanding_eq_of_isBackup {s : Server} (h : isBackup s.nextStanding = true) :
    s.nextStanding = some (true, s.nextEweight) := by
  rcases hs : s.willbeUsable with - | -
  · simp [Server.nextStanding, hs, isBackup] at h
  · have hb : s.backup = true := by simpa [Server.nextStanding, hs, isBackup] using h
    simp [Server.nextStanding, hs, hb]

theorem isBackup_of_firstBackup {useAllBk : Bool} {i : ι} (h : firstBackup st useAllBk l = some i) :
    isBackup (st i) = true := by
  rw [firstBackup] at h
  split_ifs at h
  exact List.find?_some (p := fun i => isBackup (st i)) h

theorem tally_updateBackendWeight {b : Backend ι L} (h : Counted b.px b.nextStandings b.px.srvs) :
    (updateBackendWeight b).px.tally = census b.nextStandings b.px.useAllBk b.px.srvs := by
  unfold updateBackendWeight census
  rw [← h.srvAct, ← h.srvBck, ← h.totWact, ← h.totWbck, ← h.fbck]
  by_cases hact : b.px.srvAct ≠ 0
  · simp [Proxy.tally, hact]
  · rw [if_neg hact]
    rcases hf : b.px.fbck with - | i
    · simp [Proxy.tally, hact, hf]
    · have hi : isBackup (b.nextStandings i) = true :=
        isBackup_of_firstBackup (h.fbck.symm.trans hf)
      have hwgt : wgt true (b.nextStandings i) = (b.srv i).nextEweight := by
        rw [Backend.nextStandings, nextStanding_eq_of_isBackup hi]
        rfl
      simp [Proxy.tally, hact, hf, hwgt]

/-! ### What `recountServers` computes -/

theorem headcount_nonneg (st : ι → Standing) (backup : Bool) (l : List ι) :
    0 ≤ headcount st backup l := by
  apply List.sum_nonneg
  intro n hn
  obtain ⟨i, -, rfl⟩ := List.mem_map.mp hn
  rcases st i with - | ⟨b, w⟩
  · exact le_rfl
  · simp only [one]
    split_ifs <;> decide

theorem headcount_true_eq_zero_iff :
    headcount st true l = 0 ↔ l.find? (fun i => isBackup (st i)) = none := by
  induction l with
  | nil => simp [headcount]
  | cons i l ih =>
    have hnonneg := headcount_nonneg st true l
    rw [headcount] at ih hnonneg ⊢
    rw [List.map_cons, List.sum_cons, List.find?_cons]
    rcases st i with - | ⟨- | -, w⟩
    · simpa [one, isBackup] using ih
    · simpa [one, isBackup] using ih
    · have hne : 1 + (l.map fun i => one true (st i)).sum ≠ 0 := by omega
      simpa [one, isBackup] using hne

section Recount

variable [DecidableEq ι]

theorem onlyCounts_recountServer (b : Backend ι L) (i : ι) : OnlyCounts b (recountServer b i) := by
  have hsrv (w : UInt32) (j : ι) :
      (b.updSrv i fun s => { s with cumulativeWeight := w }).srv j
        = { b.srv j with
            cumulativeWeight :=
              ((b.updSrv i fun s => { s with cumulativeWeight := w }).srv j).cumulativeWeight } := by
    by_cases hj : j = i
    · subst hj
      rw [Backend.updSrv_srv_self]
    · rw [Backend.updSrv_srv_of_ne _ _ hj]
  unfold recountServer
  split_ifs
  · exact OnlyCounts.refl b
  all_goals exact ⟨hsrv _, rfl, rfl, rfl⟩

/-- One more server is counted. -/
theorem Counted.recountServer {b : Backend ι L} (h : Counted b.px b.nextStandings l) (i : ι) :
    Counted (recountServer b i).px b.nextStandings (l ++ [i]) := by
  have hst : b.nextStandings i = (b.srv i).nextStanding := rfl
  unfold SmartHAProxy.recountServer
  rcases hu : (b.srv i).willbeUsable with - | -
  · -- not usable: the server is skipped
    have hnone : b.nextStandings i = none := by rw [hst, Server.nextStanding, hu]; rfl
    refine ⟨?_, ?_, ?_, ?_, ?_⟩
    · simpa [headcount, hnone, one] using h.srvAct
    · simpa [headcount, hnone, one] using h.srvBck
    · simpa [weight, hnone, wgt] using h.totWact
    · simpa [weight, hnone, wgt] using h.totWbck
    · simpa [firstBackup, hnone, isBackup] using h.fbck
  · rcases hb : (b.srv i).backup with - | -
    · have hsome : b.nextStandings i = some (false, (b.srv i).nextEweight) := by
        rw [hst, Server.nextStanding, hu, hb]; rfl
      refine ⟨?_, ?_, ?_, ?_, ?_⟩
      · simpa [headcount, hsome, one] using h.srvAct
      · simpa [headcount, hsome, one] using h.srvBck
      · simpa [weight, hsome, wgt] using h.totWact
      · simpa [weight, hsome, wgt] using h.totWbck
      · simpa [firstBackup, hsome, isBackup] using h.fbck
    · have hsome : b.nextStandings i = some (true, (b.srv i).nextEweight) := by
        rw [hst, Server.nextStanding, hu, hb]; rfl
      refine ⟨?_, ?_, ?_, ?_, ?_⟩
      · simpa [headcount, hsome, one] using h.srvAct
      · simpa [headcount, hsome, one] using h.srvBck
      · simpa [weight, hsome, wgt] using h.totWact
      · simpa [weight, hsome, wgt] using h.totWbck
      · -- the first backup server is elected while none is counted
        have hfirst := h.fbck
        rw [firstBackup] at hfirst ⊢
        rcases hall : b.px.useAllBk with - | -
        · have hlast : [i].find? (fun j => isBackup (b.nextStandings j)) = some i := by
            simp [hsome, isBackup]
          rw [List.find?_append, hlast]
          rcases hfind : l.find? (fun j => isBackup (b.nextStandings j)) with - | k
          · have hzero : b.px.srvBck = 0 := h.srvBck.trans (headcount_true_eq_zero_iff.mpr hfind)
            simp [hall, hzero]
          · have hpos : b.px.srvBck ≠ 0 := by
              rw [h.srvBck, Ne, headcount_true_eq_zero_iff, hfind]
              simp
            simpa [hall, hpos, hfind] using hfirst
        · simpa [hall] using hfirst

omit [DecidableEq ι] in
theorem counted_recountStart (b : Backend ι L) :
    Counted (recountStart b).px (recountStart b).nextStandings [] := by
  refine ⟨rfl, rfl, rfl, rfl, ?_⟩
  rw [firstBackup]
  split_ifs <;> rfl

theorem foldl_recountServer {b : Backend ι L} (l' : List ι) (h : Counted b.px b.nextStandings l) :
    OnlyCounts b (l'.foldl recountServer b) ∧
      Counted (l'.foldl recountServer b).px b.nextStandings (l ++ l') := by
  induction l' generalizing b l with
  | nil => exact ⟨OnlyCounts.refl b, by simpa using h⟩
  | cons i l' ih =>
    have hi := onlyCounts_recountServer b i
    have hc := h.recountServer i
    rw [← hi.nextStandings] at hc ⊢
    obtain ⟨hframe, hcount⟩ := ih hc
    exact ⟨hi.trans hframe, by simpa using hcount⟩

theorem onlyCounts_recountServers (b : Backend ι L) : OnlyCounts b (recountServers b) := by
  have h := (foldl_recountServer (b := recountStart b) (l := []) b.px.srvs (counted_recountStart b)).1
  exact ⟨h.srv, h.srvs, h.useAllBk, h.lb⟩

/-- **Counting from scratch gives the census of the pending values.** -/
theorem tally_recountServers (b : Backend ι L) :
    (updateBackendWeight (recountServers b)).px.tally
      = census b.nextStandings b.px.useAllBk b.px.srvs := by
  have hframe := onlyCounts_recountServers b
  have hcount := (foldl_recountServer (b := recountStart b) (l := []) b.px.srvs
    (counted_recountStart b)).2
  rw [← hframe.nextStandings, ← hframe.useAllBk, ← hframe.srvs]
  apply tally_updateBackendWeight
  rw [hframe.nextStandings, hframe.srvs]
  exact hcount

end Recount

end SmartHAProxy
