/-
Least connections (lb_fwlc.c) and first available server (lb_fas.c).

Both algorithms keep one tree for the active and one for the backup servers
and differ in the sorting key: the number of requests in flight over the
weight, or the server's number.  They are one definition with the key as a
parameter.

A request goes to the first server of the tree that is not saturated
(`fwlcGetNextServer`).
-/
import SmartHAProxy.Lb.Status
import SmartHAProxy.Lib.Search

namespace SmartHAProxy

/-- `struct lb_fwlc` or `struct lb_fas`, with the field `lb_tree` of the
servers: `some true` points to the tree of the backup servers. -/
structure LbTrees (ι : Type*) where
  act : EbTree UInt32 ι
  bck : EbTree UInt32 ι
  lbTree : ι → Option Bool

variable {ι : Type*} [DecidableEq ι]

namespace LbTrees

/-- `eb32_delete` of a server's node. -/
def dequeue (t : LbTrees ι) (i : ι) : LbTrees ι :=
  { t with act := t.act.delete i, bck := t.bck.delete i }

/-- `lb_tree = NULL`. -/
def removeFromTree (t : LbTrees ι) (i : ι) : LbTrees ι :=
  { t with lbTree := Function.update t.lbTree i none }

/-- Set `lb_tree` and insert the server's node there. -/
def queue (t : LbTrees ι) (backup : Bool) (key : UInt32) (i : ι) : LbTrees ι :=
  let t := { t with lbTree := Function.update t.lbTree i (some backup) }
  if backup then { t with bck := t.bck.insert key i } else { t with act := t.act.insert key i }

end LbTrees

/-- The tree of the active or of the backup servers. -/
def LbTrees.tree (t : LbTrees ι) (backup : Bool) : EbTree UInt32 ι := if backup then t.bck else t.act

/-! ### Keys -/

/-- `fwlc_queue_srv`: `(#conns+1) * SRV_EWGHT_MAX / eweight`, and 0 for a server
without requests. -/
def fwlcKey (s : Server) : UInt32 :=
  let inflight := s.served + s.queueLength
  if inflight ≠ 0 then (inflight + 1) * srvEwghtMax / s.nextEweight else 0

/-- `fas_queue_srv`. -/
def fasKey (s : Server) : UInt32 := s.puid

/-! ### Callbacks -/

/-- What an algorithm with one tree a group does on its own. -/
def treeOps (key : Server → UInt32) : LbOps ι (LbTrees ι) where
  subWeight := Proxy.subWeight
  addWeight := Proxy.addWeight
  chgWeight := Proxy.chgWeight
  unlink b i := (b.px.lb.dequeue i).removeFromTree i
  link b i := b.px.lb.queue (b.srv i).backup (key (b.srv i)) i
  relink b i :=
    let t := if (b.px.lb.lbTree i).isSome then b.px.lb.dequeue i else b.px.lb
    t.queue (b.srv i).backup (key (b.srv i)) i

/-- `fwlc_init_server_tree` and `fas_init_server_tree`. -/
def initServerTree (key : Server → UInt32) (b : Backend ι Unit) : Backend ι (LbTrees ι) :=
  let b := updateBackendWeight (recountServers b.initEweights)
  b.setLb (b.px.srvs.foldl (fun t i =>
    if !(b.srv i).currentlyUsable then t
    else t.queue (b.srv i).backup (key (b.srv i)) i) ⟨.empty, .empty, fun _ => none⟩)

def fwlcSetServerStatusDown : Backend ι (LbTrees ι) → ι → Backend ι (LbTrees ι) :=
  setServerStatusDown (treeOps fwlcKey)

def fwlcSetServerStatusUp : Backend ι (LbTrees ι) → ι → Backend ι (LbTrees ι) :=
  setServerStatusUp (treeOps fwlcKey)

def fwlcUpdateServerWeight : Backend ι (LbTrees ι) → ι → Backend ι (LbTrees ι) :=
  updateServerWeight (treeOps fwlcKey)

def fwlcInitServerTree : Backend ι Unit → Backend ι (LbTrees ι) := initServerTree fwlcKey

def fasSetServerStatusDown : Backend ι (LbTrees ι) → ι → Backend ι (LbTrees ι) :=
  setServerStatusDown (treeOps fasKey)

def fasSetServerStatusUp : Backend ι (LbTrees ι) → ι → Backend ι (LbTrees ι) :=
  setServerStatusUp (treeOps fasKey)

def fasUpdateServerWeight : Backend ι (LbTrees ι) → ι → Backend ι (LbTrees ι) :=
  updateServerWeight (treeOps fasKey)

def fasInitServerTree : Backend ι Unit → Backend ι (LbTrees ι) := initServerTree fasKey

/-! ### `fwlc_get_next_server` -/

/-- The server may take one more request, if need be in its queue: `!maxconn ||
served + queue.length < srv_dynamic_maxconn + maxqueue`. -/
def fwlcUnsaturated {L : Type*} (px : Proxy ι L) (now : ℤ) (s : Server) : Bool :=
  s.maxconn = 0 || s.served + s.queueLength < srvDynamicMaxconn px now s + s.maxqueue

/-- The criteria of a call, with the whitelist string of the request. -/
def fwlcCriteria {L : Type*} (now : ℤ) (b : Backend ι L) (srvtoavoid : Option ι)
    (servers : CStr) : Criteria ι where
  free i := fwlcUnsaturated b.px now (b.srv i)
  avoid i := some i = srvtoavoid && !strchr servers (b.srv i).srvNum

/-- `fwlc_get_next_server` at date `now`, once the whitelist string of the
request has been looked up. -/
def fwlcGetNextServer (now : ℤ) (b : Backend ι (LbTrees ι)) (srvtoavoid : Option ι)
    (servers : CStr) : Option ι :=
  let pick (backup : Bool) :=
    (fwlcCriteria now b srvtoavoid servers).search none (b.px.lb.tree backup).items
  if strchr servers '0'.toUInt8 then none
  else if b.px.srvAct ≠ 0 then pick false
  else if b.px.fbck.isSome then b.px.fbck
  else if b.px.srvBck ≠ 0 then pick true
  else none

theorem fwlcGetNextServer_eq (now : ℤ) {b : Backend ι (LbTrees ι)} {servers : CStr}
    {backup : Bool} (srvtoavoid : Option ι) (h0 : strchr servers '0'.toUInt8 = false)
    (hg : b.px.groupInUse = some backup) :
    fwlcGetNextServer now b srvtoavoid servers
      = (fwlcCriteria now b srvtoavoid servers).search none (b.px.lb.tree backup).items := by
  have h0' : ¬ strchr servers '0'.toUInt8 = true := by simp [h0]
  simp only [fwlcGetNextServer, if_neg h0']
  simp only [Proxy.groupInUse] at hg
  split_ifs at hg with hact hfbck hbck
  · rw [if_pos hact, Option.some.inj hg]
  · rw [if_neg hact, if_neg hfbck, if_pos hbck, Option.some.inj hg]

/-! ### Weights -/

theorem treeOps_lawful (key : Server → UInt32) :
    (treeOps key : LbOps ι (LbTrees ι)).Lawful fun _ _ _ _ => True where
  subWeight px s _ _ := ⟨(px.subWeight s).lb, rfl, trivial⟩
  addWeight px s _ _ := ⟨(px.addWeight s).lb, rfl, trivial⟩
  chgWeight px s _ _ := ⟨(px.chgWeight s).lb, rfl, trivial⟩
  unlink _ _ _ _ _ _ := trivial
  link _ _ _ _ _ _ _ _ := trivial
  relink _ _ _ _ _ _ _ := trivial

end SmartHAProxy
