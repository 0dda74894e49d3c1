/-
Consistent hashing (lb_chash.c): the ring, and the callbacks for status and
weight changes.

Each server owns an array of nodes with fixed keys, as many as its effective
weight, and a prefix of them is linked in the ring of its group.  A node is
named by its server and its index.  The array may have to grow; whether the
allocator grants the memory is taken from a list of answers (`heap`), an
exhausted list meaning that it does.
-/
import SmartHAProxy.Lb.Status

namespace SmartHAProxy

/-! ### Keys -/

def fullHash (a : UInt32) : UInt32 :=
  let a : UInt32 := (a + (0x7ed55d16 : UInt32)) + (a <<< (12 : UInt32))
  let a : UInt32 := (a ^^^ (0xc761c23c : UInt32)) ^^^ (a >>> (19 : UInt32))
  let a : UInt32 := (a + (0x165667b1 : UInt32)) + (a <<< (5 : UInt32))
  let a : UInt32 := (a + (0xd3a2646c : UInt32)) ^^^ (a <<< (9 : UInt32))
  let a : UInt32 := (a + (0xfd7046c5 : UInt32)) + (a <<< (3 : UInt32))
  let a : UInt32 := (a ^^^ (0xb55a4f09 : UInt32)) ^^^ (a >>> (16 : UInt32))
  a * 3221225473

def chashKey (s : Server) (node : ℕ) : UInt32 :=
  fullHash (s.puid * srvEwghtMax + UInt32.ofNat node)

/-! ### The ring -/

/-- `struct lb_chash`, with the fields of the servers that belong to it.
`lb_tree` is the tree of the server's group. -/
structure Chash (ι : Type*) where
  act : EbTree UInt32 (ι × ℕ)
  bck : EbTree UInt32 (ι × ℕ)
  last : Option (ι × ℕ)
  lbNodesTot : ι → ℕ
  lbNodesNow : ι → ℕ
  heap : List Bool

variable {ι : Type*}

namespace Chash

/-- The ring of the active or of the backup servers. -/
def tree (c : Chash ι) (backup : Bool) : EbTree UInt32 (ι × ℕ) := if backup then c.bck else c.act

def updTree (c : Chash ι) (backup : Bool)
    (u : EbTree UInt32 (ι × ℕ) → EbTree UInt32 (ι × ℕ)) : Chash ι :=
  if backup then { c with bck := u c.bck } else { c with act := u c.act }

def alloc (c : Chash ι) : Bool × Chash ι := (c.heap.headD true, { c with heap := c.heap.tail })

end Chash

variable [DecidableEq ι]

/-- `chash_skip_node`: the next node of the ring, if there is another one. -/
def chashSkipNode (t : EbTree UInt32 (ι × ℕ)) (node : ι × ℕ) : Option (ι × ℕ) :=
  let next := (after t.items node).head?.or t.first
  if next = some node then none else next

/-- The last linked node of a server leaves the ring. -/
def chashDropNode (srv : ι → Server) (c : Chash ι) (i : ι) : Chash ι :=
  let now := min (c.lbNodesNow i) (c.lbNodesTot i) - 1
  let c := { c with lbNodesNow := Function.update c.lbNodesNow i now }
  let c :=
    if c.last = some (i, now) then
      { c with last := chashSkipNode (c.tree (srv i).backup) (i, now) }
    else c
  c.updTree (srv i).backup fun t => t.delete (i, now)

/-- Nodes leave the ring until `target` of them are left.  Each turn takes one
away, so `lb_nodes_now` turns are enough. -/
def chashTrim (srv : ι → Server) (target : ℕ) (c : Chash ι) (i : ι) : ℕ → Chash ι
  | 0 => c
  | fuel + 1 =>
    if c.lbNodesNow i > target then chashTrim srv target (chashDropNode srv c i) i fuel else c

def chashDequeueSrv (srv : ι → Server) (c : Chash ι) (i : ι) : Chash ι :=
  chashTrim srv 0 c i (c.lbNodesNow i)

/-- Nodes are linked until there are `target` of them or none is left in the
array. -/
def chashFill (srv : ι → Server) (target : ℕ) (c : Chash ι) (i : ι) : ℕ → Chash ι
  | 0 => c
  | fuel + 1 =>
    let now := c.lbNodesNow i
    if now < target ∧ ¬now ≥ c.lbNodesTot i then
      let c :=
        if c.last = some (i, now) then
          { c with last := chashSkipNode (c.tree (srv i).backup) (i, now) }
        else c
      let c := c.updTree (srv i).backup fun t => t.insert (chashKey (srv i) now) (i, now)
      chashFill srv target
        { c with lbNodesNow := Function.update c.lbNodesNow i (now + 1) } i fuel
    else c

def chashQueueDequeueSrv (srv : ι → Server) (c : Chash ι) (i : ι) : Chash ι :=
  let target := (srv i).nextEweight.toNat
  let c := chashTrim srv target c i (c.lbNodesNow i)
  let c :=
    if c.lbNodesTot i < target then
      -- the array grows, so all of its nodes have to leave the ring first
      let (granted, c) := (chashDequeueSrv srv c i).alloc
      if granted then { c with lbNodesTot := Function.update c.lbNodesTot i target } else c
    else c
  chashFill srv target c i target

/-! ### Callbacks -/

/-- What `chash` does on its own. -/
def chashOps (ι : Type*) [DecidableEq ι] : LbOps ι (Chash ι) where
  subWeight := Proxy.subWeight
  addWeight := Proxy.addWeight
  chgWeight := Proxy.chgWeight
  unlink b i := chashDequeueSrv b.srv b.px.lb i
  link b i := chashQueueDequeueSrv b.srv b.px.lb i
  relink b i := chashQueueDequeueSrv b.srv b.px.lb i

def chashSetServerStatusDown : Backend ι (Chash ι) → ι → Backend ι (Chash ι) :=
  setServerStatusDown (chashOps ι)

def chashSetServerStatusUp : Backend ι (Chash ι) → ι → Backend ι (Chash ι) :=
  setServerStatusUp (chashOps ι)

def chashUpdateServerWeight : Backend ι (Chash ι) → ι → Backend ι (Chash ι) :=
  updateServerWeight (chashOps ι)

/-- One turn of the last loop of `chash_init_server_tree`; `none` when the
nodes of the server cannot be allocated. -/
def chashInitServer (srv : ι → Server) (c : Chash ι) (i : ι) : Option (Chash ι) :=
  let (granted, c) := c.alloc
  if !granted then none
  else
    let c :=
      { c with
        lbNodesTot := Function.update c.lbNodesTot i ((srv i).uweight * beWeightScale).toNat
        lbNodesNow := Function.update c.lbNodesNow i 0 }
    some (if (srv i).currentlyUsable then chashQueueDequeueSrv srv c i else c)

/-- `chash_init_server_tree`; `none` is the return value -1. -/
def chashInitServerTree (heap : List Bool) (b : Backend ι Unit) : Option (Backend ι (Chash ι)) :=
  let b := updateBackendWeight (recountServers b.initEweights)
  let c : Chash ι := ⟨.empty, .empty, none, fun _ => 0, fun _ => 0, heap⟩
  (b.px.srvs.foldlM (chashInitServer b.srv) c).map fun c => b.setLb c

theorem chashOps_lawful (ι : Type*) [DecidableEq ι] :
    (chashOps ι).Lawful fun _ _ _ _ => True where
  subWeight px s _ _ := ⟨(px.subWeight s).lb, rfl, trivial⟩
  addWeight px s _ _ := ⟨(px.addWeight s).lb, rfl, trivial⟩
  chgWeight px s _ _ := ⟨(px.chgWeight s).lb, rfl, trivial⟩
  unlink _ _ _ _ _ _ := trivial
  link _ _ _ _ _ _ _ _ := trivial
  relink _ _ _ _ _ _ _ := trivial

end SmartHAProxy
