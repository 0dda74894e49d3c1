/-
Fast weighted round robin (lb_fwrr.c): the trees, the positions of the
servers, and the callbacks for status and weight changes.

A group (active or backup servers) has three trees: `curr` with the servers
placed in the current time range, `init` with those not yet placed, and
`next` with those that have consumed their share.  `init` and `next` point to
two trees `t0` and `t1` and are exchanged when a range ends.

The code computes positions and weights in `int` and `unsigned`, always mixed
within one expression, so that the arithmetic is unsigned on 32 bits.
-/
import SmartHAProxy.Lb.Status

namespace SmartHAProxy

/-! ### Groups -/

inductive FwrrTree
  | curr
  | t0
  | t1
  deriving DecidableEq, Repr

/-- `struct fwrr_group`. -/
structure FwrrGroup (ι : Type*) where
  curr : EbTree UInt32 ι
  t0 : EbTree UInt32 ι
  t1 : EbTree UInt32 ι
  /-- the tree that `init` points to -/
  init : FwrrTree
  /-- the tree that `next` points to -/
  next : FwrrTree
  currPos : UInt32
  currWeight : UInt32
  nextWeight : UInt32

/-- `struct lb_fwrr`, with the fields of the servers that belong to it.  The
field `lb_tree` of a server points to a tree of one of the groups, the backup
group being `true`. -/
structure Fwrr (ι : Type*) where
  act : FwrrGroup ι
  bck : FwrrGroup ι
  npos : ι → UInt32
  lpos : ι → UInt32
  rweight : ι → UInt32
  lbTree : ι → Option (Bool × FwrrTree)

variable {ι : Type*}

namespace FwrrGroup

def tree (g : FwrrGroup ι) : FwrrTree → EbTree UInt32 ι
  | .curr => g.curr
  | .t0 => g.t0
  | .t1 => g.t1

def setTree (g : FwrrGroup ι) (t : FwrrTree) (e : EbTree UInt32 ι) : FwrrGroup ι :=
  match t with
  | .curr => { g with curr := e }
  | .t0 => { g with t0 := e }
  | .t1 => { g with t1 := e }

end FwrrGroup

namespace Fwrr

/-- The group of the active or of the backup servers. -/
def grp (f : Fwrr ι) (backup : Bool) : FwrrGroup ι := if backup then f.bck else f.act

def updGrp (f : Fwrr ι) (backup : Bool) (u : FwrrGroup ι → FwrrGroup ι) : Fwrr ι :=
  if backup then { f with bck := u f.bck } else { f with act := u f.act }

end Fwrr

/-! ### Placing servers -/

section Placing

variable [DecidableEq ι]

def fwrrRemoveFromTree (f : Fwrr ι) (i : ι) : Fwrr ι :=
  { f with lbTree := Function.update f.lbTree i none }

/-- `eb32_insert` of a server into a tree, with `lb_tree` set to it. -/
def fwrrInsert (f : Fwrr ι) (backup : Bool) (t : FwrrTree) (key : UInt32) (i : ι) : Fwrr ι :=
  let f := f.updGrp backup fun g => g.setTree t ((g.tree t).insert key i)
  { f with lbTree := Function.update f.lbTree i (some (backup, t)) }

/-- `fwrr_queue_by_weight`, into a tree of the group `backup`. -/
def fwrrQueueByWeight (srv : ι → Server) (f : Fwrr ι) (backup : Bool) (t : FwrrTree) (i : ι) :
    Fwrr ι :=
  fwrrInsert f backup t (srvEwghtMax - (srv i).nextEweight) i

/-- `fwrr_dequeue_srv`: `eb32_delete` takes the node out of whatever tree it is
linked in. -/
def fwrrDequeueSrv (f : Fwrr ι) (i : ι) : Fwrr ι :=
  let delete (g : FwrrGroup ι) : FwrrGroup ι :=
    { g with curr := g.curr.delete i, t0 := g.t0.delete i, t1 := g.t1.delete i }
  { f with act := delete f.act, bck := delete f.bck }

def fwrrQueueSrv (srv : ι → Server) (f : Fwrr ι) (i : ι) : Fwrr ι :=
  let s := srv i
  let g := f.grp s.backup
  if !s.willbeUsable then fwrrRemoveFromTree f i
  else if s.nextEweight ≤ 0 ∨ f.npos i ≥ 2 * g.currWeight ∨
      f.npos i ≥ g.currWeight + g.nextWeight then
    let f := { f with npos := Function.update f.npos i (f.npos i - g.currWeight) }
    fwrrQueueByWeight srv f s.backup g.next i
  else
    let key := srvUwghtRange * f.npos i +
      (srvEwghtMax + f.rweight i - s.nextEweight) / beWeightScale
    fwrrInsert f s.backup .curr key i

def fwrrGetSrvInit (f : Fwrr ι) (i : ι) : Fwrr ι :=
  { f with npos := Function.update f.npos i 0, rweight := Function.update f.rweight i 0 }

/-- `fwrr_get_srv`, with `fwrr_get_srv_next` and `fwrr_get_srv_down`. -/
def fwrrGetSrv (srv : ι → Server) (f : Fwrr ι) (i : ι) : Fwrr ι :=
  let backup := (srv i).backup
  let g := f.grp backup
  if f.lbTree i = some (backup, g.init) then fwrrGetSrvInit f i
  else if f.lbTree i = some (backup, g.next) then
    { f with npos := Function.update f.npos i (f.npos i + g.currWeight) }
  else if f.lbTree i = none then { f with npos := Function.update f.npos i g.currPos }
  else f

/-- The place of a server that joins its group, then `fwrr_queue_srv`. -/
def fwrrPlace (srv : ι → Server) (f : Fwrr ι) (i : ι) : Fwrr ι :=
  let f := fwrrGetSrv srv f i
  let g := f.grp (srv i).backup
  let npos := g.currPos + (g.nextWeight + g.currWeight - g.currPos) / (srv i).nextEweight
  fwrrQueueSrv srv { f with npos := Function.update f.npos i npos } i

/-- The new position of a placed server whose weight changed. -/
def fwrrAdjust (srv : ι → Server) (f : Fwrr ι) (i : ι) : Fwrr ι :=
  let s := srv i
  let g := f.grp s.backup
  let f := fwrrGetSrv srv f i
  if s.nextEweight > 0 then
    let prevNext := f.npos i
    let step := g.nextWeight / s.nextEweight
    let npos := f.lpos i + step
    let npos := if npos > prevNext then prevNext else npos
    let npos := if npos < g.currPos + 2 then g.currPos + step else npos
    { f with
      npos := Function.update f.npos i npos
      rweight := Function.update f.rweight i 0 }
  else { f with npos := Function.update f.npos i (g.currPos + g.currWeight) }

/-- What `fwrr_update_server_weight` does to the trees when the server is
usable before and after. -/
def fwrrReplace (srv : ι → Server) (f : Fwrr ι) (i : ι) : Fwrr ι :=
  let s := srv i
  let g := f.grp s.backup
  if f.lbTree i = some (s.backup, g.init) then
    fwrrQueueByWeight srv (fwrrDequeueSrv f i) s.backup g.init i
  else if f.lbTree i = none then fwrrPlace srv (fwrrDequeueSrv f i) i
  else fwrrQueueSrv srv (fwrrDequeueSrv (fwrrAdjust srv f i) i) i

end Placing

/-! ### Callbacks -/

section Callbacks

/-- The group of a server changes its next weight, and the total of that group
follows. -/
def fwrrMoveWeight (px : Proxy ι (Fwrr ι)) (backup : Bool) (w : UInt32 → UInt32) :
    Proxy ι (Fwrr ι) :=
  let lb := px.lb.updGrp backup fun g => { g with nextWeight := w g.nextWeight }
  if backup then { px with lb := lb, totWbck := lb.bck.nextWeight }
  else { px with lb := lb, totWact := lb.act.nextWeight }

variable [DecidableEq ι]

/-- What `fwrr` does on its own. -/
def fwrrOps (ι : Type*) [DecidableEq ι] : LbOps ι (Fwrr ι) where
  subWeight px s := fwrrMoveWeight px s.backup fun w => w - s.curEweight
  addWeight px s := fwrrMoveWeight px s.backup fun w => w + s.nextEweight
  chgWeight px s :=
    let lb := px.lb.updGrp s.backup fun g =>
      { g with nextWeight := g.nextWeight - s.curEweight + s.nextEweight }
    { px with lb := lb, totWact := lb.act.nextWeight, totWbck := lb.bck.nextWeight }
  unlink b i := fwrrRemoveFromTree (fwrrDequeueSrv b.px.lb i) i
  link b i := fwrrPlace b.srv b.px.lb i
  relink b i := fwrrReplace b.srv b.px.lb i

def fwrrSetServerStatusDown (b : Backend ι (Fwrr ι)) (i : ι) : Backend ι (Fwrr ι) :=
  setServerStatusDown (fwrrOps ι) b i

def fwrrSetServerStatusUp (b : Backend ι (Fwrr ι)) (i : ι) : Backend ι (Fwrr ι) :=
  setServerStatusUp (fwrrOps ι) b i

def fwrrUpdateServerWeight (b : Backend ι (Fwrr ι)) (i : ι) : Backend ι (Fwrr ι) :=
  updateServerWeight (fwrrOps ι) b i

def FwrrGroup.start (weight : UInt32) : FwrrGroup ι where
  curr := .empty
  t0 := .empty
  t1 := .empty
  init := .t0
  next := .t1
  currPos := weight
  currWeight := weight
  nextWeight := weight

/-- The data of the algorithm before the servers are queued.  Servers are
allocated with zeroed memory, so their positions are 0 and `lb_tree` is NULL. -/
def Fwrr.start (wact wbck : UInt32) : Fwrr ι where
  act := .start wact
  bck := .start wbck
  npos := fun _ => 0
  lpos := fun _ => 0
  rweight := fun _ => 0
  lbTree := fun _ => none

/-- One turn of the last loop of `fwrr_init_server_groups`. -/
def fwrrInitServer (srv : ι → Server) (f : Fwrr ι) (i : ι) : Fwrr ι :=
  if !(srv i).currentlyUsable then f
  else fwrrQueueByWeight srv f (srv i).backup (f.grp (srv i).backup).init i

def fwrrInitServerGroups (b : Backend ι Unit) : Backend ι (Fwrr ι) :=
  let b := updateBackendWeight (recountServers b.initEweights)
  b.setLb (b.px.srvs.foldl (fwrrInitServer b.srv) (.start b.px.totWact b.px.totWbck))

end Callbacks

/-! ### Positions

Some functions only compute positions: neither the groups nor the links of
the servers are touched. -/

/-- `f'` is `f` up to the positions of the servers. -/
structure OnlyPositions (f f' : Fwrr ι) : Prop where
  act : f'.act = f.act
  bck : f'.bck = f.bck
  lbTree : f'.lbTree = f.lbTree

theorem OnlyPositions.grp {f f' : Fwrr ι} (h : OnlyPositions f f') (backup : Bool) :
    f'.grp backup = f.grp backup := by
  rw [Fwrr.grp, Fwrr.grp, h.act, h.bck]

theorem onlyPositions_getSrv [DecidableEq ι] (srv : ι → Server) (f : Fwrr ι) (i : ι) :
    OnlyPositions f (fwrrGetSrv srv f i) := by
  simp only [fwrrGetSrv]
  split_ifs <;> exact ⟨rfl, rfl, rfl⟩

theorem onlyPositions_adjust [DecidableEq ι] (srv : ι → Server) (f : Fwrr ι) (i : ι) :
    OnlyPositions f (fwrrAdjust srv f i) := by
  have h := onlyPositions_getSrv srv f i
  rw [fwrrAdjust]
  split <;> exact ⟨h.act, h.bck, h.lbTree⟩

/-! ### The next weights

The only numbers of a group that the totals of the proxy are copied from.
Placing servers does not touch them. -/

namespace Fwrr

def nextWeights (f : Fwrr ι) : UInt32 × UInt32 := (f.act.nextWeight, f.bck.nextWeight)

theorem nextWeights_updGrp (f : Fwrr ι) (backup : Bool) {u : FwrrGroup ι → FwrrGroup ι}
    (hu : ∀ g, (u g).nextWeight = g.nextWeight) :
    (f.updGrp backup u).nextWeights = f.nextWeights := by
  unfold updGrp nextWeights
  split_ifs <;> simp [hu]

end Fwrr

theorem OnlyPositions.nextWeights {f f' : Fwrr ι} (h : OnlyPositions f f') :
    f'.nextWeights = f.nextWeights := by
  rw [Fwrr.nextWeights, Fwrr.nextWeights, h.act, h.bck]

theorem FwrrGroup.nextWeight_setTree (g : FwrrGroup ι) (t : FwrrTree) (e : EbTree UInt32 ι) :
    (g.setTree t e).nextWeight = g.nextWeight := by
  cases t <;> rfl

section Weights

variable [DecidableEq ι] (srv : ι → Server) (f : Fwrr ι) (i : ι)

theorem nextWeights_insert (backup : Bool) (t : FwrrTree) (key : UInt32) :
    (fwrrInsert f backup t key i).nextWeights = f.nextWeights :=
  f.nextWeights_updGrp backup fun g => g.nextWeight_setTree t _

theorem nextWeights_queueSrv : (fwrrQueueSrv srv f i).nextWeights = f.nextWeights := by
  simp only [fwrrQueueSrv]
  split_ifs
  · rfl
  · exact nextWeights_insert _ _ _ _ _
  · exact nextWeights_insert _ _ _ _ _

theorem nextWeights_place : (fwrrPlace srv f i).nextWeights = f.nextWeights :=
  (nextWeights_queueSrv _ _ _).trans (onlyPositions_getSrv srv f i).nextWeights

theorem nextWeights_replace : (fwrrReplace srv f i).nextWeights = f.nextWeights := by
  simp only [fwrrReplace]
  split_ifs
  · exact nextWeights_insert _ _ _ _ _
  · exact nextWeights_place _ _ _
  · exact (nextWeights_queueSrv _ _ _).trans (onlyPositions_adjust srv f i).nextWeights

end Weights

end SmartHAProxy
