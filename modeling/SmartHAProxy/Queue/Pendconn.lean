/-
Pending connections (queue.c, haproxy/queue.h).

A stream that finds no free server waits in a queue, either in that of a
server or in that of the proxy.  Its pendconn is linked in the tree of the
queue, and it is unlinked by a server that has room (which is noted in
`target`), by the redistribution of the connections of a server that went
down, or by the stream itself.

A queue is named by its server, the queue of the proxy is `none`; `ι` is the
type of the servers of the proxy.  A pendconn is named by the number of its
allocation.  Every function is one step: locks, which make it so, and the
waking up of tasks are left out.
-/
import SmartHAProxy.Lb.Backend

namespace SmartHAProxy

/-! ### Data -/

/-- The flags of a stream that the queues deal with. -/
structure StrmFlags where
  /-- `SF_DIRECT` -/
  direct : Bool
  /-- `SF_ASSIGNED` -/
  assigned : Bool
  /-- `SF_ADDR_SET` -/
  addrSet : Bool
  /-- `SF_FORCE_PRST` -/
  forcePrst : Bool
  deriving DecidableEq, Repr

/-- `flags & ~(SF_DIRECT | SF_ASSIGNED | SF_ADDR_SET)`. -/
def StrmFlags.unassign (f : StrmFlags) : StrmFlags :=
  { f with direct := false, assigned := false, addrSet := false }

/-- `struct stream`. -/
structure Strm (ι : Type*) where
  flags : StrmFlags
  /-- `objt_server(target)` -/
  target : Option ι
  srvConn : Option ι
  pendPos : Option ℕ
  priorityClass : ℤ
  priorityOffset : ℤ
  srvQueuePos : UInt64
  prxQueuePos : UInt64

/-- `struct pendconn`. -/
structure Pendconn (σ ι : Type*) where
  strmFlags : StrmFlags
  queueIdx : UInt32
  strm : σ
  queue : Option ι
  target : Option ι
  /-- the queue in whose tree the node is linked, none when `leaf_p` is NULL -/
  leafP : Option (Option ι)

/-- `struct queue`, with the counter `nbpend_max` of its owner. -/
structure Queue where
  head : EbTree UInt32 ℕ
  idx : UInt32
  length : ℤ
  nbpendMax : ℤ

/-- `queue_init`. -/
def Queue.init : Queue := ⟨.empty, 0, 0, 0⟩

/-- A proxy with its servers, the streams and the pendconns. -/
structure Queues (σ ι L : Type*) where
  back : Backend ι L
  /-- `options & PR_O_REDISP` -/
  redisp : Bool
  /-- `options & PR_O_PERSIST` -/
  persist : Bool
  /-- `track` -/
  track : ι → Option ι
  /-- `lbprm.server_take_conn`, which only moves the server in its tree -/
  takeConn : Option (Backend ι L → ι → L)
  queue : Option ι → Queue
  totpend : ℤ
  strm : σ → Strm ι
  pendconn : ℕ → Option (Pendconn σ ι)
  /-- the number of pendconns allocated so far -/
  allocated : ℕ
  /-- the pendconns that servers have picked, in the order of time -/
  handed : List (ℕ × ι)

variable {σ ι L : Type*}

namespace Queues

section Updates

variable [DecidableEq ι]

def updQueue (st : Queues σ ι L) (q : Option ι) (f : Queue → Queue) : Queues σ ι L :=
  { st with queue := Function.update st.queue q (f (st.queue q)) }

omit [DecidableEq ι] in
def updPendconn (st : Queues σ ι L) (p : ℕ) (f : Pendconn σ ι → Pendconn σ ι) : Queues σ ι L :=
  { st with pendconn := Function.update st.pendconn p ((st.pendconn p).map f) }

omit [DecidableEq ι] in
def updStrm [DecidableEq σ] (st : Queues σ ι L) (s : σ) (f : Strm ι → Strm ι) : Queues σ ι L :=
  { st with strm := Function.update st.strm s (f (st.strm s)) }

/-- `eb32_delete(&p->node)`: the node is taken out of the tree it is linked in,
if any. -/
def deleteNode (st : Queues σ ι L) (p : ℕ) : Queues σ ι L :=
  match (st.pendconn p).bind Pendconn.leafP with
  | some q =>
    (st.updQueue q fun t => { t with head := t.head.delete p }).updPendconn p fun pc =>
      { pc with leafP := none }
  | none => st

end Updates

end Queues

/-! ### Keys -/

def timerLookBack : UInt32 := 0x80000000

/-- `NOW_OFFSET_BOUNDARY()`, at date `now_ms`. -/
def nowOffsetBoundary (nowMs : UInt32) : UInt32 := (nowMs - (timerLookBack >>> (12 : UInt32))) &&& 0xfffff

def keyClass (key : UInt32) : UInt32 := key &&& 0xfff00000

def keyOffset (key : UInt32) : UInt32 := key &&& 0x000fffff

def keyClassOffsetBoundary (nowMs key : UInt32) : UInt32 := keyClass key ||| nowOffsetBoundary nowMs

def makeKey (nowMs : UInt32) (cls offset : ℤ) : UInt32 :=
  (UInt32.ofInt (cls + 0x7ff) <<< (20 : UInt32)) ||| ((nowMs + UInt32.ofInt offset) &&& 0xfffff)

/-- `pendconn_first`, with the key of the node. -/
def pendconnFirst (nowMs : UInt32) (pendconns : EbTree UInt32 ℕ) : Option (UInt32 × ℕ) :=
  match pendconns.firstNode with
  | none => none
  | some node =>
    match pendconns.lookupGe (keyClassOffsetBoundary nowMs node.1) with
    | none => some node
    | some node₂ => if keyClass node₂.1 ≠ keyClass node.1 then some node else some node₂

/-- The choice between the first pendconn of a server and the first one of the
proxy: the pendconn of the server is older, or of a class served first. -/
def serverFirst (nowMs pkey ppkey : UInt32) : Bool :=
  if keyClass pkey < keyClass ppkey then true
  else if keyClass ppkey < keyClass pkey then false
  else
    let future (key : UInt32) : UInt32 :=
      if keyOffset key < nowOffsetBoundary nowMs then keyOffset key + 0x100000 else keyOffset key
    future pkey ≤ future ppkey

/-! ### Operations -/

section Operations

variable [DecidableEq σ] [DecidableEq ι]

/-- The position in the queue of a server or of the proxy is noted in the logs of
the stream: it has seen `d` streams leave. -/
def Strm.moved (inServer : Bool) (d : UInt32) (s : Strm ι) : Strm ι :=
  if inServer then { s with srvQueuePos := s.srvQueuePos + d.toUInt64 }
  else { s with prxQueuePos := s.prxQueuePos + d.toUInt64 }

/-- `__pendconn_unlink_srv` and `__pendconn_unlink_prx`: the position of the
stream is noted, and the node is deleted. -/
def pendconnUnlinkNode (inServer : Bool) (st : Queues σ ι L) (p : ℕ) : Queues σ ι L :=
  match st.pendconn p with
  | some pc =>
    let d := (st.queue pc.queue).idx - pc.queueIdx
    (st.updStrm pc.strm (Strm.moved inServer d)).deleteNode p
  | none => st

def pendconnUnlinkSrv (st : Queues σ ι L) (p : ℕ) : Queues σ ι L := pendconnUnlinkNode true st p

def pendconnUnlinkPrx (st : Queues σ ι L) (p : ℕ) : Queues σ ι L := pendconnUnlinkNode false st p

def pendconnUnlink (st : Queues σ ι L) (p : ℕ) : Queues σ ι L :=
  match st.pendconn p with
  | some pc =>
    if pc.leafP.isSome then
      let d := (st.queue pc.queue).idx - pc.queueIdx
      let st := (st.deleteNode p).updStrm pc.strm (Strm.moved pc.queue.isSome d)
      let st := st.updQueue pc.queue fun q => { q with length := q.length - 1 }
      { st with totpend := st.totpend - 1 }
    else st
  | none => st

/-- `p->target = srv`. -/
def pendconnHand (st : Queues σ ι L) (p : ℕ) (srv : ι) : Queues σ ι L :=
  let st := st.updPendconn p fun pc => { pc with target := some srv }
  { st with handed := st.handed ++ [(p, srv)] }

/-- The stream is marked as assigned, its pendconn gets its target, and the
stream is added to the server (`stream_add_srv_conn`). -/
def pendconnAssign (st : Queues σ ι L) (p : ℕ) (srv : ι) : Queues σ ι L :=
  let st := st.updPendconn p fun pc =>
    { pc with strmFlags := { pc.strmFlags with assigned := true } }
  let st := pendconnHand st p srv
  match st.pendconn p with
  | some pc => st.updStrm pc.strm fun s => { s with srvConn := some srv }
  | none => st

/-- The counters of a queue that lost its chosen pendconn. -/
def Queue.advance (q : Queue) : Queue := { q with length := q.length - 1, idx := q.idx + 1 }

/-- `pendconn_process_next_strm`; nothing when no pendconn is found. -/
def pendconnProcessNextStrm (nowMs : UInt32) (st : Queues σ ι L) (srv : ι) (pxOk : Bool) :
    Option (Queues σ ι L) :=
  let p := if (st.queue (some srv)).length ≠ 0 then pendconnFirst nowMs (st.queue (some srv)).head
    else none
  let pp := if pxOk ∧ (st.queue none).length ≠ 0 then pendconnFirst nowMs (st.queue none).head
    else none
  let useP (p : ℕ) := (pendconnUnlinkSrv (pendconnAssign st p srv) p).updQueue (some srv) Queue.advance
  let usePp (pp : ℕ) := (pendconnAssign (pendconnUnlinkPrx st pp) pp srv).updQueue none Queue.advance
  match p, pp with
  | none, none => none
  | some p, none => some (useP p.2)
  | none, some pp => some (usePp pp.2)
  | some p, some pp => some (if serverFirst nowMs p.1 pp.1 then useP p.2 else usePp pp.2)

/-- `served` of a server is incremented. -/
def Queues.incServed (st : Queues σ ι L) (srv : ι) : Queues σ ι L :=
  { st with back := st.back.updSrv srv fun s => { s with served := s.served + 1 } }

/-- The loops of `process_srv_queue`; the limit is the same in both.  `done` is
the number of pendconns processed.  The result is none when the fuel is
exhausted. -/
def processSrvQueueLoop (nowMs : UInt32) (srv : ι) (maxconn : UInt32) (pxOk : Bool) :
    ℕ → Queues σ ι L → ℕ → Option (Queues σ ι L × ℕ)
  | 0, _, _ => none
  | fuel + 1, st, done =>
    if (st.back.srv srv).served.toInt32 < maxconn.toInt32 then
      match pendconnProcessNextStrm nowMs st srv pxOk with
      | none => some (st, done)
      | some st' => processSrvQueueLoop nowMs srv maxconn pxOk fuel (st'.incServed srv) (done + 1)
    else some (st, done)

/-- The server may dequeue requests of the proxy: no backup server, or the one
to be used. -/
def Queues.electable (st : Queues σ ι L) (srv : ι) : Bool :=
  !(st.back.srv srv).backup ||
    (st.back.px.srvAct = 0 && (some srv = st.back.px.fbck || st.back.px.useAllBk))

/-- The number of pendconns linked in a queue. -/
def Queues.size (st : Queues σ ι L) (q : Option ι) : ℕ := (st.queue q).head.items.length

/-- The end of `process_srv_queue`, after `done` pendconns were processed. -/
def processSrvQueueEnd (srv : ι) (st : Queues σ ι L) (done : ℕ) : Queues σ ι L :=
  if done = 0 then st
  else
    let st := { st with
      totpend := st.totpend - done
      back := { st.back with px := { st.back.px with served := st.back.px.served + done } } }
    match st.takeConn with
    | some f => { st with back := st.back.setLb (f st.back srv) }
    | none => st

def processSrvQueue (now : ℤ) (nowMs : UInt32) (st : Queues σ ι L) (srv : ι) :
    Option (Queues σ ι L) :=
  let ref := (st.track srv).getD srv
  let pxOk := (st.back.srv ref).currentlyUsable && st.electable srv
  let maxconn := srvDynamicMaxconn st.back.px now (st.back.srv srv)
  (processSrvQueueLoop nowMs srv maxconn pxOk (st.size (some srv) + st.size none + 1) st 0).map
    fun r => processSrvQueueEnd srv r.1 r.2

/-- `pendconn_add`; `pool_alloc` may fail, which leaves everything as it was. -/
def pendconnAdd (nowMs : UInt32) (st : Queues σ ι L) (strm : σ) : Queues σ ι L :=
  let s := st.strm strm
  let q := if s.flags.assigned then s.target else none
  let p := st.allocated
  let pc : Pendconn σ ι :=
    { strmFlags := s.flags
      queueIdx := (st.queue q).idx - 1
      strm := strm
      queue := q
      target := none
      leafP := some q }
  let st := st.updStrm strm fun s => { s with pendPos := some p }
  let st := st.updQueue q fun t =>
    { t with
      length := t.length + 1
      nbpendMax := max t.nbpendMax (t.length + 1)
      head := t.head.insert (makeKey nowMs s.priorityClass s.priorityOffset) p }
  { st with
    pendconn := Function.update st.pendconn p (some pc)
    allocated := p + 1
    totpend := st.totpend + 1 }

/-- The end of `pendconn_redistribute` and `pendconn_grab_from_px`: `xferred`
pendconns have left queue `q`. -/
def pendconnTransferred (q : Option ι) (st : Queues σ ι L) (xferred : ℕ) : Queues σ ι L :=
  let st := st.updQueue q fun t => { t with length := t.length - xferred }
  { st with totpend := st.totpend - xferred }

/-- One turn of the loop of `pendconn_redistribute`. -/
def pendconnRedistributeNode (r : Queues σ ι L × ℕ) (p : ℕ) : Queues σ ι L × ℕ :=
  match r.1.pendconn p with
  | some pc =>
    if pc.strmFlags.forcePrst then r
    else
      ((pendconnUnlinkSrv r.1 p).updPendconn p fun pc =>
        { pc with strmFlags := pc.strmFlags.unassign }, r.2 + 1)
  | none => r

def pendconnRedistribute (st : Queues σ ι L) (srv : ι) : Queues σ ι L :=
  if !(st.redisp && !st.persist) then st
  else
    let r := (st.queue (some srv)).head.items.foldl pendconnRedistributeNode (st, 0)
    pendconnTransferred (some srv) r.1 r.2

/-- The loop of `pendconn_grab_from_px`, with the number of pendconns taken. -/
def pendconnGrabLoop (nowMs : UInt32) (srv : ι) (maxconn : UInt32) :
    ℕ → Queues σ ι L → ℕ → Option (Queues σ ι L × ℕ)
  | 0, _, _ => none
  | fuel + 1, st, xferred =>
    match pendconnFirst nowMs (st.queue none).head with
    | none => some (st, xferred)
    | some (_, p) =>
      let s := st.back.srv srv
      if s.maxconn ≠ 0 ∧ (s.served + .ofNat xferred).toInt32 ≥ maxconn.toInt32 then
        some (st, xferred)
      else
        pendconnGrabLoop nowMs srv maxconn fuel (pendconnHand (pendconnUnlinkPrx st p) p srv)
          (xferred + 1)

def pendconnGrabFromPx (now : ℤ) (nowMs : UInt32) (st : Queues σ ι L) (srv : ι) :
    Option (Queues σ ι L) :=
  if !(st.back.srv srv).currentlyUsable then some st
  else if !st.electable srv then some st
  else
    let maxconn := srvDynamicMaxconn st.back.px now (st.back.srv srv)
    (pendconnGrabLoop nowMs srv maxconn (st.size none + 1) st 0).map fun r =>
      pendconnTransferred none r.1 r.2

/-- `pool_free` of a pendconn. -/
def Queues.release (st : Queues σ ι L) (p : ℕ) : Queues σ ι L :=
  { st with pendconn := Function.update st.pendconn p none }

/-- `pendconn_dequeue`, with the value it returns.  Without a pendconn the
function aborts. -/
def pendconnDequeue (st : Queues σ ι L) (strm : σ) : Option (Queues σ ι L × Bool) :=
  match (st.strm strm).pendPos with
  | none => none
  | some p =>
    match st.pendconn p with
    | none => none
    | some pc =>
      if pc.leafP.isSome then some (st, true)
      else
        let st := st.updStrm strm fun s =>
          { s with
            flags :=
              { s.flags with
                direct := pc.strmFlags.direct
                assigned := pc.strmFlags.assigned || pc.target.isSome
                addrSet := pc.strmFlags.addrSet }
            target := if pc.target.isSome then pc.target else s.target
            pendPos := none }
        some (st.release p, false)

def pendconnFree (st : Queues σ ι L) (strm : σ) : Queues σ ι L :=
  match (st.strm strm).pendPos with
  | none => st
  | some p =>
    ((pendconnUnlink st p).updStrm strm fun s => { s with pendPos := none }).release p

end Operations

end SmartHAProxy
