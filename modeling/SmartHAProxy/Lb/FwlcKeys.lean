/-
Least connections: the keys of the servers follow their requests (lb_fwlc.c).

A server is put into its tree with a key that depends on the requests in
flight, and `fwlc_srv_reposition` computes the key again when requests come or
go.  It does so from the weight in force before it looks whether the server is
in a tree at all, so a server that has lost its weight and still has requests
makes it divide by zero: `none` stands for that.

`FwlcPlaced` is the invariant.  It survives changes of status and weight
(`LbOps.Keeps`) and the repositioning of a server with a weight.

Main results: `fwlcPlaced_init`, `fwlcPlaced_keeps` and `FwlcPlaced.reposition`, the
invariant, and `fwlc_reposition_safe`, runs.
-/
import SmartHAProxy.Lb.Keeps

namespace SmartHAProxy

variable {served queueLength : UInt32}

universe u

variable {ι : Type u} [DecidableEq ι]
variable {b : Backend ι (LbTrees ι)}

/-! ### Repositioning -/

/-- The key of the node of a server, if it is in a tree (`leaf_p` and `key`). -/
def LbTrees.nodeKey (t : LbTrees ι) (i : ι) : Option UInt32 :=
  ((t.act.nodes ++ t.bck.nodes).find? fun n => n.2 = i).map Prod.fst

/-- `new_key` of `fwlc_srv_reposition`; `none` is a division by zero. -/
def fwlcCurKey (s : Server) : Option UInt32 :=
  let inflight := s.served + s.queueLength
  if inflight ≠ 0 then
    if s.curEweight = 0 then none else some ((inflight + 1) * srvEwghtMax / s.curEweight)
  else some 0

/-- `fwlc_srv_reposition`, the callback for connections taken and dropped;
`none` is a division by zero.  With one thread the key is still the same when
it is computed again under the lock. -/
def fwlcSrvReposition (b : Backend ι (LbTrees ι)) (i : ι) : Option (Backend ι (LbTrees ι)) :=
  (fwlcCurKey (b.srv i)).map fun newKey =>
    if b.px.lb.nodeKey i = some newKey then b
    else match b.px.lb.lbTree i with
      | none => b
      | some backup => b.setLb ((b.px.lb.dequeue i).queue backup newKey i)

/-- New numbers of requests of a server: being served, and in its queue. -/
def Backend.setRequests {L : Type*} (b : Backend ι L) (i : ι) (served queueLength : UInt32) :
    Backend ι L :=
  b.updSrv i fun s => { s with served := served, queueLength := queueLength }

/-- Steps of a backend, `none` being a division by zero.  A server is
repositioned when a connection is taken or dropped (`sess_change_server`,
`connect_server`) and when requests leave its queue in order to be served
(`process_srv_queue`), not when its queue alone changes (`pendconn_add`,
`pendconn_unlink`, `pendconn_redistribute`). -/
inductive FwlcStep (track : ι → Option ι) :
    Backend ι (LbTrees ι) → Option (Backend ι (LbTrees ι)) → Prop
  | status {b b' : Backend ι (LbTrees ι)} (hstep : LbStep .lctree track b b') :
      FwlcStep track b (some b')
  | requests (b : Backend ι (LbTrees ι)) (i : ι) (served queueLength : UInt32) :
      FwlcStep track b (fwlcSrvReposition (b.setRequests i served queueLength) i)
  | queue (b : Backend ι (LbTrees ι)) (i : ι) (queueLength : UInt32) :
      FwlcStep track b (some (b.setRequests i (b.srv i).served queueLength))

def FwlcRoom (served queueLength : UInt32) : Prop := served.toNat + queueLength.toNat + 1 < 2 ^ 20

/-- The steps that do what they should: a server is repositioned if it has a
weight or no request, and requests come to or leave the queue of a server that
is not in a tree. -/
inductive FwlcSafeStep (track : ι → Option ι) :
    Backend ι (LbTrees ι) → Option (Backend ι (LbTrees ι)) → Prop
  | status {b b' : Backend ι (LbTrees ι)} (hstep : LbStep .lctree track b b') :
      FwlcSafeStep track b (some b')
  | requests (b : Backend ι (LbTrees ι)) (i : ι) (served queueLength : UInt32)
      (hroom : FwlcRoom served queueLength)
      (hweight : (b.srv i).curEweight ≠ 0 ∨ served + queueLength = 0) :
      FwlcSafeStep track b (fwlcSrvReposition (b.setRequests i served queueLength) i)
  | queue (b : Backend ι (LbTrees ι)) (i : ι) (queueLength : UInt32)
      (hroom : FwlcRoom (b.srv i).served queueLength) (hlink : b.px.lb.nodeKey i = none) :
      FwlcSafeStep track b (some (b.setRequests i (b.srv i).served queueLength))

/-- Runs of a backend.  A division by zero ends a run. -/
inductive FwlcRun (Step : Backend ι (LbTrees ι) → Option (Backend ι (LbTrees ι)) → Prop)
    (b₀ : Backend ι (LbTrees ι)) : Option (Backend ι (LbTrees ι)) → Prop
  | start : FwlcRun Step b₀ (some b₀)
  | step {b : Backend ι (LbTrees ι)} {o : Option (Backend ι (LbTrees ι))}
      (hrun : FwlcRun Step b₀ (some b)) (hstep : Step b o) : FwlcRun Step b₀ o

/-! ### Where the nodes are -/

namespace LbTrees

variable {t : LbTrees ι} {backup backup' : Bool} {key : UInt32} {i : ι} {n : UInt32 × ι}

theorem mem_nodes_dequeue :
    n ∈ ((t.dequeue i).tree backup).nodes ↔ n ∈ (t.tree backup).nodes ∧ n.2 ≠ i := by
  cases backup with
  | false => exact EbTree.mem_nodes_delete
  | true => exact EbTree.mem_nodes_delete

theorem mem_nodes_queue : n ∈ ((t.queue backup key i).tree backup').nodes ↔
    (backup' = backup ∧ n = (key, i)) ∨ n ∈ (t.tree backup').nodes := by
  cases backup <;> cases backup'
  · simpa [queue, tree] using EbTree.mem_nodes_insert
  · simp [queue, tree]
  · simp [queue, tree]
  · simpa [queue, tree] using EbTree.mem_nodes_insert

theorem queue_lbTree (t : LbTrees ι) (backup : Bool) (key : UInt32) (i : ι) :
    (t.queue backup key i).lbTree = Function.update t.lbTree i (some backup) := by
  cases backup with
  | false => rfl
  | true => rfl

theorem mem_of_nodeKey (h : t.nodeKey i = some key) :
    ∃ backup, (key, i) ∈ (t.tree backup).nodes := by
  obtain ⟨n, hfind, rfl⟩ := Option.map_eq_some_iff.mp h
  have hn : n.2 = i := by simpa only [decide_eq_true_eq] using List.find?_some hfind
  subst hn
  rcases List.mem_append.mp (List.mem_of_find?_eq_some hfind) with hact | hbck
  · exact ⟨false, hact⟩
  · exact ⟨true, hbck⟩

theorem not_mem_of_nodeKey (h : t.nodeKey i = none) (hn : n ∈ (t.tree backup).nodes) : n.2 ≠ i := by
  intro he
  have hmem : n ∈ t.act.nodes ++ t.bck.nodes := by
    cases backup with
    | false => exact List.mem_append_left _ hn
    | true => exact List.mem_append_right _ hn
  have hfind := List.find?_eq_none.mp (Option.map_eq_none_iff.mp h) n hmem
  exact hfind (decide_eq_true he)

end LbTrees

/-! ### The invariant -/

theorem fwlcCurKey_congr {s s' : Server} (hrest : s'.rest = s.rest)
    (hweight : s'.curEweight = s.curEweight) : fwlcCurKey s' = fwlcCurKey s := by
  have hserved : s'.served = s.served := congrArg Server.Rest.served hrest
  have hqueue : s'.queueLength = s.queueLength := congrArg Server.Rest.queueLength hrest
  rw [fwlcCurKey, fwlcCurKey, hserved, hqueue, hweight]

theorem fwlcCurKey_commit {s : Server} (h : s.nextEweight ≠ 0) :
    fwlcCurKey s.lbCommitStatus = some (fwlcKey s) := by
  show (if s.served + s.queueLength ≠ 0 then
    if s.nextEweight = 0 then none else some _ else some 0) = _
  rw [if_neg h, fwlcKey]
  split_ifs <;> rfl

/-- A server is in the tree that it is said to be in, under the key of its requests. -/
structure FwlcPlaced (srv : ι → Server) (t : LbTrees ι) : Prop where
  room : ∀ i, FwlcRoom (srv i).served (srv i).queueLength
  key : ∀ {backup n}, n ∈ (t.tree backup).nodes →
    t.lbTree n.2 = some backup ∧ fwlcCurKey (srv n.2) = some n.1
  usable : ∀ {i backup}, t.lbTree i = some backup → (srv i).currentlyUsable = true

namespace FwlcPlaced

variable {srv : ι → Server} {t : LbTrees ι} {i : ι} {s : Server}

omit [DecidableEq ι] in
theorem not_mem (h : FwlcPlaced srv t) (hi : t.lbTree i = none) {backup : Bool} {n : UInt32 × ι}
    (hn : n ∈ (t.tree backup).nodes) : n.2 ≠ i := by
  rintro rfl
  rw [(h.key hn).1] at hi
  cases hi

theorem stay (h : FwlcPlaced srv t) (hroom : FwlcRoom s.served s.queueLength)
    (husable : ∀ backup, t.lbTree i = some backup → s.currentlyUsable = true)
    (hkey : ∀ backup key, (key, i) ∈ (t.tree backup).nodes → fwlcCurKey s = some key) :
    FwlcPlaced (Function.update srv i s) t where
  room j := by
    by_cases hj : j = i
    · subst hj
      rw [Function.update_self]
      exact hroom
    · rw [Function.update_of_ne hj]
      exact h.room j
  key {backup n} hn := by
    obtain ⟨htree, hold⟩ := h.key hn
    refine ⟨htree, ?_⟩
    by_cases hj : n.2 = i
    · subst hj
      rw [Function.update_self]
      exact hkey backup n.1 hn
    · rw [Function.update_of_ne hj]
      exact hold
  usable {j backup} hj := by
    by_cases hji : j = i
    · subst hji
      rw [Function.update_self]
      exact husable backup hj
    · rw [Function.update_of_ne hji]
      exact h.usable hj

theorem absent (h : FwlcPlaced srv t) (hi : t.lbTree i = none)
    (hroom : FwlcRoom s.served s.queueLength) : FwlcPlaced (Function.update srv i s) t := by
  apply h.stay hroom
  · intro backup htree
    rw [hi] at htree
    cases htree
  · intro backup key hn
    exact absurd rfl (h.not_mem hi hn)

theorem remove (h : FwlcPlaced srv t) (i : ι) :
    FwlcPlaced srv ((t.dequeue i).removeFromTree i) where
  room := h.room
  key hn := by
    obtain ⟨hmem, hne⟩ := LbTrees.mem_nodes_dequeue.mp hn
    obtain ⟨htree, hkey⟩ := h.key hmem
    exact ⟨(Function.update_of_ne hne ..).trans htree, hkey⟩
  usable {j backup} hj := by
    have hj' : Function.update t.lbTree i none j = some backup := hj
    by_cases hji : j = i
    · subst hji
      rw [Function.update_self] at hj'
      cases hj'
    · rw [Function.update_of_ne hji] at hj'
      exact h.usable hj'

theorem requeue (h : FwlcPlaced srv t) (hroom : FwlcRoom s.served s.queueLength)
    (husable : s.currentlyUsable = true) {backup : Bool} {key : UInt32}
    (hkey : fwlcCurKey s = some key) (t' : LbTrees ι) (htree : t'.lbTree = t.lbTree)
    (hmem : ∀ {backup' n}, n ∈ (t'.tree backup').nodes → n ∈ (t.tree backup').nodes ∧ n.2 ≠ i) :
    FwlcPlaced (Function.update srv i s) (t'.queue backup key i) where
  room j := by
    by_cases hj : j = i
    · subst hj
      rw [Function.update_self]
      exact hroom
    · rw [Function.update_of_ne hj]
      exact h.room j
  key {backup' n} hn := by
    rw [LbTrees.queue_lbTree, htree]
    rcases LbTrees.mem_nodes_queue.mp hn with ⟨rfl, rfl⟩ | hn'
    · exact ⟨Function.update_self .., by rw [Function.update_self]; exact hkey⟩
    · obtain ⟨hold, hne⟩ := hmem hn'
      rw [Function.update_of_ne hne, Function.update_of_ne hne]
      exact h.key hold
  usable {j backup'} hj := by
    rw [LbTrees.queue_lbTree, htree] at hj
    by_cases hji : j = i
    · subst hji
      rw [Function.update_self]
      exact husable
    · rw [Function.update_of_ne hji] at hj ⊢
      exact h.usable hj

end FwlcPlaced

/-! ### What preserves it -/

/-- **Changes of status and weight keep the keys right.** -/
theorem fwlcPlaced_keeps (i : ι) : (treeOps fwlcKey).Keeps i FwlcPlaced where
  subWeight_srvs px s := px.subWeight_srvs s
  addWeight_srvs px s := px.addWeight_srvs s
  chgWeight_srvs px s := px.chgWeight_srvs s
  server {srv t} s h hrest hstanding := by
    have hserved : s.served = (srv i).served := congrArg Server.Rest.served hrest
    have hqueue : s.queueLength = (srv i).queueLength := congrArg Server.Rest.queueLength hrest
    have hroom : FwlcRoom s.served s.queueLength := by
      rw [hserved, hqueue]
      exact h.room i
    -- a server in a tree is usable, so its weight is part of its standing
    have husable {backup : Bool} (htree : t.lbTree i = some backup) :=
      currentlyUsable_of_standing hstanding (h.usable htree)
    apply h.stay hroom
    · intro backup htree
      exact (husable htree).1
    · intro backup key hn
      obtain ⟨htree, hkey⟩ := h.key hn
      rw [fwlcCurKey_congr hrest (husable htree).2]
      exact hkey
  unlink {b} px h hlb _ _ := by
    have hlb' : px.lb = b.px.lb := hlb.trans (b.px.subWeight_lb _)
    show FwlcPlaced _ ((px.lb.dequeue i).removeFromTree i)
    rw [hlb']
    exact (h.remove i).absent (Function.update_self ..) (h.room i)
  link {b} px h hlb hc hw := by
    have hlb' : px.lb = b.px.lb := hlb.trans (b.px.addWeight_lb _)
    have hweight := Server.eweight_ne_zero_of_usableWith hw
    have hnone : b.px.lb.lbTree i = none := by
      rcases hi : b.px.lb.lbTree i with - | backup
      · rfl
      · rw [h.usable hi] at hc
        cases hc
    show FwlcPlaced _ (px.lb.queue _ _ i)
    rw [hlb']
    exact h.requeue (s := (b.srv i).lbCommitStatus) (h.room i) hw (fwlcCurKey_commit hweight) _ rfl
      fun hn => ⟨hn, h.not_mem hnone hn⟩
  relink {b} px h hlb _ hw := by
    have hlb' : px.lb = b.px.lb := hlb.trans (b.px.chgWeight_lb _)
    have hweight := Server.eweight_ne_zero_of_usableWith hw
    show FwlcPlaced _ ((if (px.lb.lbTree i).isSome then px.lb.dequeue i else px.lb).queue _ _ i)
    rw [hlb']
    apply h.requeue (s := (b.srv i).lbCommitStatus) (h.room i) hw (fwlcCurKey_commit hweight)
    · split <;> rfl
    · intro backup n hn
      split_ifs at hn with hsome
      · exact LbTrees.mem_nodes_dequeue.mp hn
      · exact ⟨hn, h.not_mem (Option.not_isSome_iff_eq_none.mp hsome) hn⟩

theorem FwlcRoom.toNat_add (h : FwlcRoom served queueLength) :
    (served + queueLength).toNat = served.toNat + queueLength.toNat := by
  rw [UInt32.toNat_add]
  exact Nat.mod_eq_of_lt (Nat.lt_of_lt_of_le (Nat.lt_of_succ_lt h) (by decide))

/-- **Repositioning a server keeps the keys right**, and computes the key of a
server with a weight or without requests. -/
theorem FwlcPlaced.reposition (h : FwlcPlaced b.srv b.px.lb) {i : ι}
    (hroom : FwlcRoom served queueLength)
    (hweight : (b.srv i).curEweight ≠ 0 ∨ served + queueLength = 0) :
    ∃ b', fwlcSrvReposition (b.setRequests i served queueLength) i = some b' ∧
      b'.px.srvs = b.px.srvs ∧ FwlcPlaced b'.srv b'.px.lb := by
  let s : Server := { b.srv i with served := served, queueLength := queueLength }
  have hsrv : (b.setRequests i served queueLength).srv i = s := Backend.updSrv_srv_self ..
  obtain ⟨newKey, hkey⟩ : ∃ newKey, fwlcCurKey s = some newKey := by
    unfold fwlcCurKey
    by_cases hzero : served + queueLength = 0
    · exact ⟨0, if_neg (not_not.mpr hzero)⟩
    · rw [if_pos hzero, if_neg (hweight.resolve_right hzero)]
      exact ⟨_, rfl⟩
  have hbelow (backup : Bool) (key : UInt32) (hn : (key, i) ∈ (b.px.lb.tree backup).nodes) :
      fwlcCurKey (b.srv i) = some key := (h.key hn).2
  rw [fwlcSrvReposition, hsrv, hkey]
  refine ⟨_, rfl, ?_⟩
  dsimp only
  split_ifs with hsame
  · -- every node of the server has that key already
    refine ⟨rfl, h.stay hroom (fun _ htree => h.usable htree) fun backup key hn => ?_⟩
    obtain ⟨backup', hn'⟩ := LbTrees.mem_of_nodeKey hsame
    rw [hkey, ← hbelow backup' newKey hn', hbelow backup key hn]
  · split
    · rename_i hnone
      exact ⟨rfl, h.absent hnone hroom⟩
    · rename_i backup hsome
      exact ⟨rfl, h.requeue (s := s) hroom (h.usable hsome) hkey _ rfl
        fun hn => LbTrees.mem_nodes_dequeue.mp hn⟩

/-! ### The start -/

theorem fwlcRoom_zero (hserved : served = 0) (hqueue : queueLength = 0) :
    FwlcRoom served queueLength := by
  subst hserved hqueue
  show 0 + 0 + 1 < 2 ^ 20
  decide

theorem rest_foldl_initEweight {L : Type*} (l : List ι) (b : Backend ι L) (i : ι) :
    ((l.foldl initEweight b).srv i).rest = (b.srv i).rest := by
  induction l generalizing b with
  | nil => rfl
  | cons j l ih =>
    rw [List.foldl_cons, ih, initEweight]
    by_cases hj : i = j
    · subst hj
      rw [Backend.updSrv_srv_self]
      rfl
    · rw [Backend.updSrv_srv_of_ne _ _ hj]

theorem requests_start {L : Type*} (b : Backend ι L) (i : ι) :
    ((updateBackendWeight (recountServers b.initEweights)).srv i).served = (b.srv i).served ∧
      ((updateBackendWeight (recountServers b.initEweights)).srv i).queueLength =
        (b.srv i).queueLength := by
  have hrest : ((b.initEweights).srv i).rest = (b.srv i).rest := rest_foldl_initEweight _ _ i
  have hcounts := (onlyCounts_recountServers b.initEweights).srv i
  obtain ⟨w, u, he⟩ := updateBackendWeight_eq (recountServers b.initEweights)
  rw [he]
  constructor
  · exact (congrArg Server.served hcounts).trans (congrArg Server.Rest.served hrest)
  · exact (congrArg Server.queueLength hcounts).trans (congrArg Server.Rest.queueLength hrest)

theorem fwlcKey_idle {s : Server} (hserved : s.served = 0) (hqueue : s.queueLength = 0) :
    fwlcKey s = 0 ∧ fwlcCurKey s = some 0 := by
  unfold fwlcKey fwlcCurKey
  rw [hserved, hqueue]
  exact ⟨rfl, rfl⟩

theorem fwlcPlaced_foldl {srv : ι → Server}
    (hidle : ∀ i, (srv i).served = 0 ∧ (srv i).queueLength = 0) {l : List ι} (hl : l.Nodup)
    {t : LbTrees ι} (h : FwlcPlaced srv t) (hnone : ∀ i ∈ l, t.lbTree i = none) :
    FwlcPlaced srv (l.foldl (fun t i =>
      if !(srv i).currentlyUsable then t
      else t.queue (srv i).backup (fwlcKey (srv i)) i) t) := by
  induction l generalizing t with
  | nil => exact h
  | cons i l ih =>
    rw [List.nodup_cons] at hl
    rw [List.foldl_cons]
    split_ifs with hc
    · exact ih hl.2 h fun j hj => hnone j (List.mem_cons_of_mem _ hj)
    · obtain ⟨hkey, hcur⟩ := fwlcKey_idle (hidle i).1 (hidle i).2
      have hi := hnone i List.mem_cons_self
      have hqueued : FwlcPlaced (Function.update srv i (srv i)) (t.queue (srv i).backup 0 i) :=
        h.requeue (h.room i) (by simpa using hc) hcur t rfl fun hn => ⟨hn, h.not_mem hi hn⟩
      rw [Function.update_eq_self, ← hkey] at hqueued
      refine ih hl.2 hqueued fun j hj => ?_
      have hji : j ≠ i := by
        rintro rfl
        exact hl.1 hj
      rw [LbTrees.queue_lbTree, Function.update_of_ne hji]
      exact hnone j (List.mem_cons_of_mem _ hj)

/-- **The trees are right when they have been built.** -/
theorem fwlcPlaced_init {b : Backend ι Unit}
    (hidle : ∀ i, (b.srv i).served = 0 ∧ (b.srv i).queueLength = 0) :
    FwlcPlaced (fwlcInitServerTree b).srv (fwlcInitServerTree b).px.lb := by
  have hidle' (i : ι) : ((updateBackendWeight (recountServers b.initEweights)).srv i).served = 0 ∧
      ((updateBackendWeight (recountServers b.initEweights)).srv i).queueLength = 0 := by
    rw [(requests_start b i).1, (requests_start b i).2]
    exact hidle i
  apply fwlcPlaced_foldl hidle' (Proxy.nodup _)
  · refine ⟨fun i => fwlcRoom_zero (hidle' i).1 (hidle' i).2, fun {backup n} hn => ?_, nofun⟩
    cases backup <;> cases hn
  · exact fun _ _ => rfl

/-! ### Runs -/

theorem callbacks_of_key {key : Server → UInt32}
    (hkey : ∀ s, s.nextEweight ≠ 0 → key s = fwlcKey s) :
    (treeOps key : LbOps ι (LbTrees ι)).callbacks = (treeOps fwlcKey).callbacks := by
  have hkey' {s : Server} (hw : s.willbeUsable = true) : key s = fwlcKey s :=
    hkey s (Server.eweight_ne_zero_of_usableWith hw)
  have hup : setServerStatusUp (treeOps key : LbOps ι (LbTrees ι)) =
      setServerStatusUp (treeOps fwlcKey) := by
    funext b i
    simp only [setServerStatusUp]
    split_ifs with _ hw _
    · rfl
    · rfl
    · rfl
    · simp only [treeOps]
      rw [hkey' (by simpa using hw)]
  have hweight : updateServerWeight (treeOps key : LbOps ι (LbTrees ι)) =
      updateServerWeight (treeOps fwlcKey) := by
    funext b i
    simp only [updateServerWeight]
    split_ifs with _ hdown hcome hleave
    · rfl
    · rfl
    · rw [hup]
    · rfl
    · have hw : (b.srv i).willbeUsable = true := by
        rcases hc : (b.srv i).currentlyUsable with - | - <;>
          rcases hw : (b.srv i).willbeUsable with - | - <;> simp [hc, hw] at hdown hcome hleave ⊢
      simp only [treeOps]
      rw [hkey' hw]
  show LbCallbacks.mk (some (setServerStatusDown (treeOps key))) _ _ = _
  rw [hup, hweight]
  rfl

theorem init_of_key {key : Server → UInt32} (hkey : ∀ s, s.nextEweight ≠ 0 → key s = fwlcKey s)
    (b : Backend ι Unit) : initServerTree key b = fwlcInitServerTree b := by
  have hbal := balanced_init b
  obtain ⟨w, u, he⟩ := updateBackendWeight_eq (recountServers b.initEweights)
  unfold fwlcInitServerTree initServerTree
  dsimp only
  rw [List.foldl_ext _ _ _ fun t i hi => ?_]
  have hi' : i ∈ b.px.srvs := hbal.srvs ▸ hi
  split_ifs with hc
  · rfl
  · -- a usable server has a weight, and nothing is pending
    have hstanding := Server.curStanding_of_usable (by simpa using hc)
    rw [hbal.settled i hi'] at hstanding
    have hw :
        ((updateBackendWeight (recountServers b.initEweights)).srv i).willbeUsable = true := by
      by_contra hw
      rw [Server.nextStanding_of_not_usable (by simpa using hw)] at hstanding
      cases hstanding
    rw [hkey _ (Server.eweight_ne_zero_of_usableWith hw)]

/-- Both trees are sorted, and the key of a server in a tree is 0 when it has no
request in flight, and `(inflight + 1) * SRV_EWGHT_MAX / cur_eweight` when it has. -/
def Backend.FwlcSorted (b : Backend ι (LbTrees ι)) : Prop :=
  ∀ backup, (b.px.lb.tree backup).nodes.Pairwise (fun n n' => n.1 ≤ n'.1) ∧
    ∀ n ∈ (b.px.lb.tree backup).nodes, (b.srv n.2).curEweight ≠ 0 ∧
      n.1.toNat =
        if (b.srv n.2).served.toNat + (b.srv n.2).queueLength.toNat = 0 then 0
        else ((b.srv n.2).served.toNat + (b.srv n.2).queueLength.toNat + 1) * srvEwghtMax.toNat /
          (b.srv n.2).curEweight.toNat

omit [DecidableEq ι] in
theorem FwlcPlaced.sorted (h : FwlcPlaced b.srv b.px.lb) : b.FwlcSorted := by
  intro backup
  refine ⟨(b.px.lb.tree backup).sorted, fun n hn => ?_⟩
  obtain ⟨htree, hkey⟩ := h.key hn
  have hweight : (b.srv n.2).curEweight ≠ 0 :=
    Server.eweight_ne_zero_of_usableWith (h.usable htree)
  have hroom := h.room n.2
  have hsum := hroom.toNat_add
  refine ⟨hweight, ?_⟩
  rw [fwlcCurKey] at hkey
  split_ifs at hkey with hinflight
  · -- the product stays below 2^32
    rw [← Option.some.inj hkey, UInt32.toNat_div, UInt32.toNat_mul, UInt32.toNat_add, hsum, if_neg]
    · unfold FwlcRoom at hroom
      have hmax : srvEwghtMax.toNat = 4096 := rfl
      have hone : (1 : UInt32).toNat = 1 := rfl
      rw [hmax, hone, Nat.mod_eq_of_lt (a := _ + 1) (by omega), Nat.mod_eq_of_lt (by omega)]
    · rw [← hsum]
      exact fun hzero => hinflight (UInt32.toNat_inj.mp hzero)
  · rw [← Option.some.inj hkey, if_pos]
    · rfl
    · rw [← hsum, not_not.mp hinflight]
      rfl

/-- **Repositioning never divides by zero and the trees are right after it**, in
every run in which a server that is repositioned has a weight or no request,
no server has 2^20 requests or so, and the queue of a server in a tree does not change
on its own; `fwlc_queue_srv` never divides by zero. -/
theorem fwlc_reposition_safe {track : ι → Option ι} {b : Backend ι Unit}
    (hidle : ∀ i, (b.srv i).served = 0 ∧ (b.srv i).queueLength = 0)
    {o : Option (Backend ι (LbTrees ι))}
    (hrun : FwlcRun (FwlcSafeStep track) (fwlcInitServerTree b) o) :
    (∃ b', o = some b' ∧ b'.FwlcSorted) ∧
      ∀ key : Server → UInt32, (∀ s, s.nextEweight ≠ 0 → key s = fwlcKey s) →
        (treeOps key : LbOps ι (LbTrees ι)).callbacks = (treeOps fwlcKey).callbacks ∧
          initServerTree key b = fwlcInitServerTree b := by
  refine ⟨?_, fun key hkey => ⟨callbacks_of_key hkey, init_of_key hkey b⟩⟩
  have hinv : ∃ b', o = some b' ∧ b'.Meets b.px.srvs FwlcPlaced := by
    induction hrun with
    | start =>
      refine ⟨_, rfl, ?_, fwlcPlaced_init hidle⟩
      have hinit : Lookup.init [] b .lctree = some (fwlcInitServerTree b) := rfl
      exact (balanced_of_init hinit).srvs
    | step _ hstep ih =>
      obtain ⟨b₁, hb₁, hmeets⟩ := ih
      obtain rfl := Option.some.inj hb₁
      cases hstep with
      | status hstep =>
        exact ⟨_, rfl, LbStep.keeps (k := .lctree) (fun i _ => fwlcPlaced_keeps i) hmeets hstep⟩
      | requests i served queueLength hroom hweight =>
        obtain ⟨b', hr, hsrvs, hplaced⟩ := hmeets.2.reposition hroom hweight
        exact ⟨b', hr, hsrvs.trans hmeets.1, hplaced⟩
      | queue i queueLength hroom hlink =>
        refine ⟨_, rfl, hmeets.1, ?_⟩
        apply hmeets.2.stay hroom
        · exact fun _ htree => hmeets.2.usable htree
        · exact fun _ _ hn => absurd rfl (LbTrees.not_mem_of_nodeKey hlink hn)
  obtain ⟨b', rfl, hmeets⟩ := hinv
  exact ⟨b', rfl, hmeets.2.sorted⟩

/-- A server takes a connection. -/
theorem fwlc_reposition_safe_take : ∃ b',
    fwlcSrvReposition ((fwlcInitServerTree twoServers).setRequests false 1 0) false = some b' ∧
      b'.FwlcSorted := by
  have hidle : ∀ i, (twoServers.srv i).served = 0 ∧ (twoServers.srv i).queueLength = 0 :=
    fun _ => ⟨rfl, rfl⟩
  have hroom : FwlcRoom 1 0 := by
    show 1 + 0 + 1 < 2 ^ 20
    decide
  have hstep : FwlcSafeStep (fun _ => none) (fwlcInitServerTree twoServers)
      (fwlcSrvReposition ((fwlcInitServerTree twoServers).setRequests false 1 0) false) :=
    .requests _ false 1 0 hroom (.inl (by decide))
  exact (fwlc_reposition_safe hidle (.step .start hstep)).1

theorem fwlcSrvReposition_eq_none {i : ι} (hweight : (b.srv i).curEweight = 0)
    (hinflight : served + queueLength ≠ 0) :
    fwlcSrvReposition (b.setRequests i served queueLength) i = none := by
  rw [fwlcSrvReposition, Backend.setRequests, Backend.updSrv_srv_self]
  have hkey : fwlcCurKey { b.srv i with served := served, queueLength := queueLength } = none := by
    unfold fwlcCurKey
    rw [if_pos hinflight, if_pos hweight]
  rw [hkey]
  rfl

theorem fwlcStep_eweight (track : ι → Option ι) (b : Backend ι (LbTrees ι)) (c : Change ι)
    (hc : c.server ∈ b.px.srvs) :
    LbStep .lctree track b (fwlcUpdateServerWeight (c.apply b) c.server) :=
  LbStep.eweight (k := .lctree) b c hc

/-- A server takes two connections from the queue of the backend and loses its
weight; then it drops one of them. -/
theorem not_fwlc_reposition_safe :
    ¬ ∀ o, FwlcRun (FwlcStep fun _ => none) (fwlcInitServerTree twoServers) o →
      ∃ b', o = some b' ∧ b'.FwlcSorted := by
  intro h
  have hidle : ∀ i, (twoServers.srv i).served = 0 ∧ (twoServers.srv i).queueLength = 0 :=
    fun _ => ⟨rfl, rfl⟩
  have hroom : FwlcRoom 2 0 := by
    show 2 + 0 + 1 < 2 ^ 20
    decide
  let b₀ := fwlcInitServerTree twoServers
  obtain ⟨b₁, htake, hsrvs, -⟩ : ∃ b₁,
      fwlcSrvReposition (b₀.setRequests false 2 0) false = some b₁ ∧
        b₁.px.srvs = b₀.px.srvs ∧ FwlcPlaced b₁.srv b₁.px.lb :=
    (fwlcPlaced_init hidle).reposition hroom (.inl (by decide))
  let b₂ := fwlcUpdateServerWeight (zeroWeight.apply b₁) zeroWeight.server
  have hmem : false ∈ b₁.px.srvs := by
    rw [hsrvs]
    decide
  have hweight : LbStep .lctree (fun _ => none) b₁ b₂ := fwlcStep_eweight _ b₁ zeroWeight hmem
  have hzero : (b₂.srv false).curEweight = 0 := by
    show ((updateServerWeight (treeOps fwlcKey) (zeroWeight.apply b₁) false).srv
      false).curEweight = 0
    rw [srv_updateServerWeight, Function.update_self]
    rfl
  have hdrop : fwlcSrvReposition (b₂.setRequests false 1 0) false = none :=
    fwlcSrvReposition_eq_none hzero (by decide)
  have hrun : FwlcRun (FwlcStep fun _ => none) b₀ none :=
    ((FwlcRun.start.step (htake ▸ .requests b₀ false 2 0)).step (.status hweight)).step
      (hdrop ▸ .requests b₂ false 1 0)
  obtain ⟨b', hnone, -⟩ := h none hrun
  cases hnone

end SmartHAProxy
