/-
The static server map (lb_map.c): the callbacks for status changes recount
all servers and compute the map again.

Scores are unsigned and wrap around below zero; they are only used after a
multiple of the total has been added.
-/
import SmartHAProxy.Lb.Status

namespace SmartHAProxy

/-- `lbprm.map` with the scores of the servers. -/
structure LbMap (ι : Type*) where
  /-- the slots of the table; those up to `tot_weight` are in use -/
  srv : ℕ → Option ι
  wscore : ι → UInt32

/-- Where the search for the server of one slot stands. -/
structure MapSearch (ι : Type*) where
  wscore : ι → UInt32
  max : UInt32
  best : Option ι

variable {ι : Type*} [DecidableEq ι]

/-- One turn of the innermost loop of `recalc_server_map`. -/
def mapVisit (srv : ι → Server) (tot : UInt32) (m : MapSearch ι) (i : ι) : MapSearch ι :=
  let score := m.wscore i + (srv i).nextEweight
  let v := (score + tot) / tot
  let wscore := Function.update m.wscore i score
  if m.best = none ∨ v > m.max then ⟨wscore, v, some i⟩ else { m with wscore := wscore }

/-- One turn of the loop over the slots.  "If we are forced to return only one
server, we don't want to go further": its score is left alone by the search. -/
def mapFill (srv : ι → Server) (candidates : List ι) (tot : UInt32) (m : LbMap ι) (o : ℕ) :
    LbMap ι :=
  let r :=
    if tot = 1 then ⟨m.wscore, 0, candidates.head?⟩
    else candidates.foldl (mapVisit srv tot) ⟨m.wscore, 0, none⟩
  { srv := Function.update m.srv o r.best
    wscore := match r.best with
      | some i => Function.update r.wscore i (r.wscore i - tot)
      | none => r.wscore }

def recalcServerMap (b : Backend ι (LbMap ι)) : Backend ι (LbMap ι) :=
  if b.px.totUsed = 0 then b
  else
    let tot := b.px.totWeight
    let candidates := b.px.srvs.filter fun i =>
      (b.srv i).backup = decide (b.px.srvAct = 0) && (b.srv i).willbeUsable
    let wscore := fun i => if i ∈ b.px.srvs then 0 else b.px.lb.wscore i
    b.setLb ((List.range tot.toNat).foldl (mapFill b.srv candidates tot)
      { b.px.lb with wscore := wscore })

def mapSetServerStatusDown (b : Backend ι (LbMap ι)) (i : ι) : Backend ι (LbMap ι) :=
  if !(b.srv i).lbStatusChanged then b
  else if (b.srv i).willbeUsable then b.commit i
  else (recalcServerMap (updateBackendWeight (recountServers b))).commit i

def mapSetServerStatusUp (b : Backend ι (LbMap ι)) (i : ι) : Backend ι (LbMap ι) :=
  if !(b.srv i).lbStatusChanged then b
  else if !(b.srv i).willbeUsable then b.commit i
  else (recalcServerMap (updateBackendWeight (recountServers b))).commit i

end SmartHAProxy
