/-
Consistent hashing: the arrays of nodes, over whole runs (lb_chash.c).

The key of a node is stored when the memory of the node is allocated, and not
looked at before the node is linked.  `ChashArr` is the ring with these keys; its operations
refine those of `Chash` as long as the keys are right (`ring_queueDequeueSrv`).
Whether memory can be had is answered by the list `heap` of the ring.

`chash_nodes_exact`: whatever is changed and whatever is picked, each call of
`chash_queue_dequeue_srv` leaves behind the first nodes of the array of its
server, as many as its weight or all of them.
-/
import SmartHAProxy.Lb.ChashNodes
import SmartHAProxy.Lb.FwrrNext

namespace SmartHAProxy

universe u

variable {ι : Type u} [DecidableEq ι]

/-! ### The arrays -/

/-- The rings, with the keys that are stored in the arrays of the servers.
`returns` is a history variable: the server that `chash_queue_dequeue_srv` was
called for and the rings that it left, for each of its calls. -/
structure ChashArr (ι : Type u) where
  ring : Chash ι
  key : ι → ℕ → UInt32
  returns : List (ι × Server × Chash ι)

namespace ChashArr

/-- `chash_dequeue_srv`. -/
def dequeueSrv (srv : ι → Server) (a : ChashArr ι) (i : ι) : ChashArr ι :=
  { a with ring := chashDequeueSrv srv a.ring i }

/-- The array of a server grows: all of its nodes leave the ring, and the new ones
are given their keys if there is memory for them. -/
def grow (srv : ι → Server) (target : ℕ) (a : ChashArr ι) (i : ι) : ChashArr ι :=
  let a := a.dequeueSrv srv i
  let (granted, ring) := a.ring.alloc
  if granted then
    { a with
      ring := { ring with lbNodesTot := Function.update ring.lbNodesTot i target }
      key := Function.update a.key i fun j =>
        if ring.lbNodesTot i ≤ j ∧ j < target then chashKey (srv i) j else a.key i j }
  else { a with ring := ring }

/-- The first half of `chash_queue_dequeue_srv`: the nodes in excess leave, and
the array grows if it is too small. -/
def makeRoom (srv : ι → Server) (a : ChashArr ι) (i : ι) : ChashArr ι :=
  let target := (srv i).nextEweight.toNat
  let a := { a with ring := chashTrim srv target a.ring i (a.ring.lbNodesNow i) }
  if a.ring.lbNodesTot i < target then a.grow srv target i else a

/-- `chash_queue_dequeue_srv`. -/
def queueDequeueSrv (srv : ι → Server) (a : ChashArr ι) (i : ι) : ChashArr ι :=
  let target := (srv i).nextEweight.toNat
  let a := a.makeRoom srv i
  let ring := chashFillKeys srv target (a.key i) a.ring i target
  { a with ring := ring, returns := (i, srv i, ring) :: a.returns }

/-- The keys of the arrays are those of the servers. -/
def Keyed (srv : ι → Server) (a : ChashArr ι) : Prop :=
  ∀ i, ∀ j < a.ring.lbNodesTot i, a.key i j = chashKey (srv i) j

def Others (i : ι) (a a' : ChashArr ι) : Prop :=
  ∀ j, j ≠ i → a'.ring.lbNodesNow j = a.ring.lbNodesNow j ∧
    a'.ring.lbNodesTot j = a.ring.lbNodesTot j

variable {srv : ι → Server} {a : ChashArr ι} {i : ι}

/-- **All nodes of a server leave the ring.** -/
theorem dequeueSrv_spec (h : ChashPlaced srv a.ring) (hk : a.Keyed srv) (i : ι) :
    ChashPlaced srv (a.dequeueSrv srv i).ring ∧ (a.dequeueSrv srv i).Keyed srv ∧
      Others i a (a.dequeueSrv srv i) ∧ (a.dequeueSrv srv i).ring.lbNodesNow i = 0 ∧
      (a.dequeueSrv srv i).ring.lbNodesTot = a.ring.lbNodesTot := by
  obtain ⟨hplaced, hmoves, hmin⟩ :=
    h.trim (i := i) 0 (a.ring.lbNodesNow i) (Nat.le_add_left _ _)
  have htot : (a.dequeueSrv srv i).ring.lbNodesTot = a.ring.lbNodesTot := hmoves.tot
  refine ⟨hplaced, fun i' j hj => ?_, fun j hj => ⟨hmoves.now j hj, congrFun htot j⟩,
    hmin.trans (Nat.min_zero _), htot⟩
  rw [htot] at hj
  exact hk i' j hj

theorem grow_spec (h : ChashPlaced srv a.ring) (hk : a.Keyed srv) {target : ℕ}
    (hlt : a.ring.lbNodesTot i < target) :
    ChashPlaced srv (a.grow srv target i).ring ∧ (a.grow srv target i).Keyed srv ∧
      Others i a (a.grow srv target i) ∧ (a.grow srv target i).ring.lbNodesNow i = 0 := by
  obtain ⟨hplaced, hkeyed, hothers, hzero, htot⟩ := dequeueSrv_spec h hk i
  unfold grow
  dsimp only [Chash.alloc]
  split_ifs
  · refine ⟨⟨hplaced.nodup, hplaced.mem, fun i' => ?_, hplaced.last⟩, fun i' j hj => ?_,
      fun j hj => ⟨(hothers j hj).1, ?_⟩, hzero⟩
    · show (a.dequeueSrv srv i).ring.lbNodesNow i' ≤
        Function.update (a.dequeueSrv srv i).ring.lbNodesTot i target i'
      apply Nat.le_trans (hplaced.now_le i')
      by_cases hi : i' = i
      · subst hi
        rw [Function.update_self, htot]
        exact Nat.le_of_lt hlt
      · rw [Function.update_of_ne hi]
    · replace hj : j < Function.update (a.dequeueSrv srv i).ring.lbNodesTot i target i' := hj
      show Function.update (a.dequeueSrv srv i).key i (fun j => _) i' j = _
      by_cases hi : i' = i
      · subst hi
        rw [Function.update_self] at hj
        rw [Function.update_self]
        split_ifs with hnew
        · rfl
        · exact hkeyed i' j (Nat.lt_of_not_le fun hle => hnew ⟨hle, hj⟩)
      · rw [Function.update_of_ne hi] at hj ⊢
        exact hkeyed i' j hj
    · show Function.update (a.dequeueSrv srv i).ring.lbNodesTot i target j = _
      rw [Function.update_of_ne hj]
      exact (hothers j hj).2
  · exact ⟨⟨hplaced.nodup, hplaced.mem, hplaced.now_le, hplaced.last⟩, hkeyed, hothers, hzero⟩

theorem returns_makeRoom (srv : ι → Server) (a : ChashArr ι) (i : ι) :
    (a.makeRoom srv i).returns = a.returns := by
  unfold makeRoom grow
  dsimp only
  split_ifs <;> rfl

theorem makeRoom_spec (h : ChashPlaced srv a.ring) (hk : a.Keyed srv) (i : ι) :
    ChashPlaced srv (a.makeRoom srv i).ring ∧ (a.makeRoom srv i).Keyed srv ∧
      Others i a (a.makeRoom srv i) ∧
      (a.makeRoom srv i).ring.lbNodesNow i ≤ (srv i).nextEweight.toNat := by
  obtain ⟨hplaced, hmoves, hmin⟩ := h.trim (i := i) (srv i).nextEweight.toNat
    (a.ring.lbNodesNow i) (Nat.le_add_left _ _)
  unfold makeRoom
  dsimp only
  generalize chashTrim srv (srv i).nextEweight.toNat a.ring i (a.ring.lbNodesNow i) = c at *
  have hkeyed : ({ a with ring := c } : ChashArr ι).Keyed srv := by
    intro i' j hj
    rw [show ({ a with ring := c } : ChashArr ι).ring.lbNodesTot = a.ring.lbNodesTot from
      hmoves.tot] at hj
    exact hk i' j hj
  have hothers : Others i a { a with ring := c } :=
    fun j hj => ⟨hmoves.now j hj, congrFun hmoves.tot j⟩
  split_ifs with hgrow
  · obtain ⟨hp, hk', ho, hz⟩ := grow_spec hplaced hkeyed hgrow
    refine ⟨hp, hk', fun j hj => ?_, by rw [hz]; exact Nat.zero_le _⟩
    exact ⟨(ho j hj).1.trans (hothers j hj).1, (ho j hj).2.trans (hothers j hj).2⟩
  · refine ⟨hplaced, hkeyed, hothers, ?_⟩
    show c.lbNodesNow i ≤ _
    rw [hmin]
    exact Nat.min_le_right _ _

/-- **`chash_queue_dequeue_srv` leaves the first nodes of the array in the ring**, as many as the
weight or all of them. -/
theorem queueDequeueSrv_spec (h : ChashPlaced srv a.ring) (hk : a.Keyed srv) (i : ι) :
    ChashPlaced srv (a.queueDequeueSrv srv i).ring ∧ (a.queueDequeueSrv srv i).Keyed srv ∧
      Others i a (a.queueDequeueSrv srv i) ∧
      (a.queueDequeueSrv srv i).ring.lbNodesNow i =
        min (srv i).nextEweight.toNat ((a.queueDequeueSrv srv i).ring.lbNodesTot i) := by
  obtain ⟨hplaced, hkeyed, hothers, hle⟩ := makeRoom_spec h hk i
  obtain ⟨hfilled, hmoves, hnow⟩ := hplaced.fill (srv i).nextEweight.toNat (hkeyed i) hle
    (Nat.le_add_left _ _)
  unfold queueDequeueSrv
  refine ⟨hfilled, fun i' j hj => ?_, fun j hj => ⟨?_, ?_⟩, ?_⟩
  · replace hj : j < (chashFillKeys srv _ _ _ i _).lbNodesTot i' := hj
    rw [hmoves.tot] at hj
    exact hkeyed i' j hj
  · exact (hmoves.now j hj).trans (hothers j hj).1
  · exact (congrFun hmoves.tot j).trans (hothers j hj).2
  · show (chashFillKeys srv _ _ _ i _).lbNodesNow i =
      min _ ((chashFillKeys srv _ _ _ i _).lbNodesTot i)
    rw [hnow, hmoves.tot]

/-! ### Refinement -/

theorem lbNodesTot_chashLinkNode (c : Chash ι) (i : ι) (key : UInt32) :
    (chashLinkNode srv c i key).lbNodesTot = c.lbNodesTot := by
  unfold chashLinkNode
  dsimp only
  rw [Chash.updTree_lbNodesTot]
  split_ifs <;> rfl

theorem chashFillKeys_eq (target : ℕ) (key : ℕ → UInt32) (fuel : ℕ) {c : Chash ι}
    (hkey : ∀ j < c.lbNodesTot i, key j = chashKey (srv i) j) :
    chashFillKeys srv target key c i fuel = chashFill srv target c i fuel := by
  induction fuel generalizing c with
  | zero => rfl
  | succ fuel ih =>
    rw [chashFillKeys, chashFill]
    dsimp only
    split_ifs with hlt hlast
    · have hnow := hkey _ (Nat.lt_of_not_le hlt.2)
      rw [ih (by rw [lbNodesTot_chashLinkNode]; exact hkey), hnow]
      unfold chashLinkNode
      dsimp only
      rw [if_pos hlast]
    · have hnow := hkey _ (Nat.lt_of_not_le hlt.2)
      rw [ih (by rw [lbNodesTot_chashLinkNode]; exact hkey), hnow]
      unfold chashLinkNode
      dsimp only
      rw [if_neg hlast]
    · rfl

/-- **The arrays refine the rings**: `chash_queue_dequeue_srv` does to the rings what it does
when the keys are computed on the spot. -/
theorem ring_queueDequeueSrv (h : ChashPlaced srv a.ring) (hk : a.Keyed srv) (i : ι) :
    (a.queueDequeueSrv srv i).ring = chashQueueDequeueSrv srv a.ring i := by
  obtain ⟨-, hkeyed, -, -⟩ := makeRoom_spec h hk i
  have hroom : (a.makeRoom srv i).ring =
      (let target := (srv i).nextEweight.toNat
      let c := chashTrim srv target a.ring i (a.ring.lbNodesNow i)
      if c.lbNodesTot i < target then
        let (granted, c) := (chashDequeueSrv srv c i).alloc
        if granted then { c with lbNodesTot := Function.update c.lbNodesTot i target } else c
      else c) := by
    unfold makeRoom grow dequeueSrv
    dsimp only [Chash.alloc]
    split_ifs <;> rfl
  unfold queueDequeueSrv chashQueueDequeueSrv
  dsimp only
  rw [chashFillKeys_eq _ _ _ (hkeyed i), hroom]

end ChashArr

/-! ### What a call leaves behind -/

/-- The ring of server `s`, named `i`, has as many of its nodes as its weight or
the size of its array, and these are the first ones, each once and under its
key; `last` is in a ring. -/
structure ChashExact (i : ι) (s : Server) (c : Chash ι) : Prop where
  nodes : ∀ backup key j, (key, (i, j)) ∈ (c.tree backup).nodes ↔
    s.backup = backup ∧ j < c.lbNodesNow i ∧
      key = fullHash (s.puid * srvEwghtMax + UInt32.ofNat j)
  nodup : ∀ backup, (c.tree backup).items.Nodup
  now : c.lbNodesNow i = min s.nextEweight.toNat (c.lbNodesTot i)
  last : ∀ n, c.last = some n → ∃ backup, n ∈ (c.tree backup).items

omit [DecidableEq ι] in
theorem ChashPlaced.last_mem {srv : ι → Server} {c : Chash ι} (h : ChashPlaced srv c) (n : ι × ℕ)
    (hl : c.last = some n) : ∃ backup, n ∈ (c.tree backup).items :=
  ⟨(srv n.1).backup, h.mem_items.mpr ⟨rfl, h.last hl⟩⟩

/-- What every operation on the arrays keeps. -/
structure ChashSound (srv : ι → Server) (a : ChashArr ι) : Prop where
  placed : ChashPlaced srv a.ring
  keyed : a.Keyed srv
  returns : ∀ r ∈ a.returns, ChashExact r.1 r.2.1 r.2.2

namespace ChashSound

variable {srv : ι → Server} {a : ChashArr ι}

omit [DecidableEq ι] in
theorem congr {srv' : ι → Server} (h : ChashSound srv a)
    (hb : ∀ i, (srv' i).backup = (srv i).backup) (hp : ∀ i, (srv' i).puid = (srv i).puid) :
    ChashSound srv' a where
  placed := h.placed.congr hb hp
  keyed i j hj := by rw [h.keyed i j hj, chashKey, chashKey, hp]
  returns := h.returns

theorem dequeueSrv (h : ChashSound srv a) (i : ι) : ChashSound srv (a.dequeueSrv srv i) := by
  obtain ⟨hplaced, hkeyed, -⟩ := ChashArr.dequeueSrv_spec h.placed h.keyed i
  exact ⟨hplaced, hkeyed, h.returns⟩

theorem queueDequeueSrv (h : ChashSound srv a) (i : ι) :
    ChashSound srv (a.queueDequeueSrv srv i) := by
  obtain ⟨hplaced, hkeyed, -, hnow⟩ := ChashArr.queueDequeueSrv_spec h.placed h.keyed i
  refine ⟨hplaced, hkeyed, fun r hr => ?_⟩
  rcases List.mem_cons.mp hr with rfl | hr
  · exact ⟨fun _ _ _ => hplaced.mem, hplaced.nodup, hnow, hplaced.last_mem⟩
  · rw [ChashArr.returns_makeRoom] at hr
    exact h.returns r hr

end ChashSound

/-! ### Picking the next server -/

variable {L : Type*}
variable {l : List ι} {b' b₀ : Backend ι (ChashArr ι)} {heap : List Bool} {b : Backend ι Unit}
  {track : ι → Option ι}

/-- The node that `chash_get_next_server` goes to from `node`: the next one of
its ring, or the first one of the ring in use. -/
def Chash.nextNode (c : Chash ι) (srv : ι → Server) (backup : Bool) (node : Option (ι × ℕ)) :
    Option (ι × ℕ) :=
  (node.bind fun n => (after (c.tree (srv n.1).backup).items n).head?).or (c.tree backup).first

/-- The loop of `chash_get_next_server`: the server, and `last`.  It turns until
it is back at `stop`, which is not always in the ring; `none` when `fuel` turns
are not enough. -/
def chashNextLoop (free : ι → Bool) (avoid : Option ι)
    (next : Option (ι × ℕ) → Option (ι × ℕ)) (stop node avoided : Option (ι × ℕ)) :
    ℕ → Option (Option ι × Option (ι × ℕ))
  | 0 => none
  | fuel + 1 =>
    match next node with
    | none => some (none, none)
    | some n =>
      let stop := stop.getD n
      if free n.1 && some n.1 ≠ avoid then some (some n.1, some n)
      else
        let avoided := if free n.1 then some n else avoided
        if n ≠ stop then chashNextLoop free avoid next (some stop) (some n) avoided fuel
        else some (avoided.map Prod.fst, avoided)

def chashGetNextServer (now : ℤ) (b : Backend ι (ChashArr ι)) (avoid : Option ι) (fuel : ℕ) :
    Option (Option ι × Backend ι (ChashArr ι)) :=
  let pick (backup : Bool) :=
    let c := b.px.lb.ring
    (chashNextLoop (fun i => unsaturated b.px now (b.srv i)) avoid (c.nextNode b.srv backup) c.last
      c.last none fuel).map fun r => (r.1, b.setLb { b.px.lb with ring := { c with last := r.2 } })
  if b.px.srvAct ≠ 0 then pick false
  else if b.px.fbck.isSome then some (b.px.fbck, b)
  else if b.px.srvBck ≠ 0 then pick true
  else some (none, b)

theorem Chash.nextNode_mem {c : Chash ι} {srv : ι → Server} {backup : Bool}
    {node : Option (ι × ℕ)} {n : ι × ℕ} (h : c.nextNode srv backup node = some n) :
    ∃ backup, n ∈ (c.tree backup).items := by
  rcases Option.or_eq_some_iff.mp h with hnext | ⟨-, hfirst⟩
  · obtain ⟨m, -, hm⟩ := Option.bind_eq_some_iff.mp hnext
    exact ⟨(srv m.1).backup, mem_of_mem_after (List.mem_of_mem_head? hm)⟩
  · exact ⟨backup, EbTree.first_mem hfirst⟩

theorem chashNextLoop_last {free : ι → Bool} {avoid : Option ι}
    {next : Option (ι × ℕ) → Option (ι × ℕ)} {P : ι × ℕ → Prop}
    (hnext : ∀ node n, next node = some n → P n) {stop node avoided : Option (ι × ℕ)} {fuel : ℕ}
    {r : Option ι × Option (ι × ℕ)} (havoided : ∀ n, avoided = some n → P n)
    (h : chashNextLoop free avoid next stop node avoided fuel = some r) :
    ∀ n, r.2 = some n → P n := by
  induction fuel generalizing stop node avoided with
  | zero => cases h
  | succ fuel ih =>
    rw [chashNextLoop] at h
    rcases hn : next node with - | n
    · simp only [hn, Option.some.injEq] at h
      subst h
      exact fun _ hr => nomatch hr
    · simp only [hn] at h
      have havoided' : ∀ m, (if free n.1 = true then some n else avoided) = some m → P m := by
        intro m hm
        split_ifs at hm
        · obtain rfl := Option.some.inj hm
          exact hnext node _ hn
        · exact havoided m hm
      generalize (if free n.1 = true then some n else avoided) = avoided' at h havoided'
      split_ifs at h
      · obtain rfl := Option.some.inj h
        intro m hm
        obtain rfl := Option.some.inj hm
        exact hnext node _ hn
      · exact ih havoided' h
      · obtain rfl := Option.some.inj h
        exact havoided'

/-- **A pick changes `last` only, and `last` stays in a ring.** -/
theorem chashGetNextServer_sound {now : ℤ} {b : Backend ι (ChashArr ι)} {avoid : Option ι}
    {fuel : ℕ} {r : Option ι} (h : b.Meets l ChashSound)
    (hpick : chashGetNextServer now b avoid fuel = some (r, b')) : b'.Meets l ChashSound := by
  have hpicked {backup : Bool} (hp : (chashNextLoop (fun i => unsaturated b.px now (b.srv i)) avoid
      (b.px.lb.ring.nextNode b.srv backup) b.px.lb.ring.last b.px.lb.ring.last none fuel).map
      (fun r => (r.1, b.setLb { b.px.lb with ring := { b.px.lb.ring with last := r.2 } })) =
      some (r, b')) : b'.Meets l ChashSound := by
    obtain ⟨⟨r', last⟩, hloop, he⟩ := Option.map_eq_some_iff.mp hp
    obtain ⟨-, rfl⟩ := Prod.mk.inj he
    have hin := chashNextLoop_last (P := fun n => ∃ backup, n ∈ (b.px.lb.ring.tree backup).items)
      (fun _ _ => Chash.nextNode_mem) (by rintro n ⟨⟩) hloop
    refine ⟨h.1, ⟨h.2.placed.nodup, h.2.placed.mem, h.2.placed.now_le, fun {i j} hl => ?_⟩,
      h.2.keyed, h.2.returns⟩
    obtain ⟨backup, hmem⟩ := hin (i, j) hl
    exact (h.2.placed.mem_items.mp hmem).2
  unfold chashGetNextServer at hpick
  dsimp only at hpick
  split_ifs at hpick
  · exact hpicked hpick
  · obtain ⟨-, rfl⟩ := Prod.mk.inj (Option.some.inj hpick)
    exact h
  · exact hpicked hpick
  · obtain ⟨-, rfl⟩ := Prod.mk.inj (Option.some.inj hpick)
    exact h

/-! ### Building the rings -/

/-- One turn of the last loop of `chash_init_server_tree`; `none` when the
nodes of the server cannot be allocated. -/
def ChashArr.initServer (srv : ι → Server) (a : ChashArr ι) (i : ι) : Option (ChashArr ι) :=
  let (granted, ring) := a.ring.alloc
  if !granted then none
  else
    let tot := ((srv i).uweight * beWeightScale).toNat
    let a :=
      { a with
        ring :=
          { ring with
            lbNodesTot := Function.update ring.lbNodesTot i tot
            lbNodesNow := Function.update ring.lbNodesNow i 0 }
        key := Function.update a.key i fun j => if j < tot then chashKey (srv i) j else 0 }
    some (if (srv i).currentlyUsable then a.queueDequeueSrv srv i else a)

/-- `chash_init_server_tree`; `none` is the return value -1. -/
def chashArrInitServerTree (heap : List Bool) (b : Backend ι Unit) :
    Option (Backend ι (ChashArr ι)) :=
  let b := updateBackendWeight (recountServers b.initEweights)
  let a : ChashArr ι :=
    ⟨⟨.empty, .empty, none, fun _ => 0, fun _ => 0, heap⟩, fun _ _ => 0, []⟩
  (b.px.srvs.foldlM (ChashArr.initServer b.srv) a).map fun a => b.setLb a

section Init

variable {srv : ι → Server}

omit [DecidableEq ι] in
theorem chashSound_start (srv : ι → Server) (heap : List Bool) : ChashSound srv
    ⟨⟨.empty, .empty, none, fun _ => 0, fun _ => 0, heap⟩, fun _ _ => 0, []⟩ where
  placed :=
    { nodup := fun backup => by cases backup <;> exact List.nodup_nil
      mem := fun {backup key i j} => by
        constructor
        · cases backup <;> exact fun h => nomatch h
        · exact fun h => absurd h.2.1 (Nat.not_lt_zero j)
      now_le := fun _ => Nat.le_refl 0
      last := fun h => nomatch h }
  keyed _ j hj := absurd hj (Nat.not_lt_zero j)
  returns _ h := nomatch h

/-- A server that has no nodes gets its array. -/
theorem ChashSound.initServer {a a' : ChashArr ι} {i : ι} (h : ChashSound srv a)
    (hnow : a.ring.lbNodesNow i = 0) (hinit : a.initServer srv i = some a') :
    ChashSound srv a' ∧ ∀ j, j ≠ i → a'.ring.lbNodesNow j = a.ring.lbNodesNow j := by
  have hsame : Function.update a.ring.lbNodesNow i 0 = a.ring.lbNodesNow := by
    rw [← hnow, Function.update_eq_self]
  unfold ChashArr.initServer at hinit
  dsimp only [Chash.alloc] at hinit
  rw [hsame] at hinit
  generalize ((srv i).uweight * beWeightScale).toNat = tot at hinit
  generalize ha₁ : ({ a with
    ring := { a.ring with
      heap := a.ring.heap.tail
      lbNodesTot := Function.update a.ring.lbNodesTot i tot }
    key := Function.update a.key i fun j => if j < tot then chashKey (srv i) j else 0 } :
      ChashArr ι) = a₁ at hinit
  have hsound : ChashSound srv a₁ := by
    subst ha₁
    refine ⟨⟨h.placed.nodup, h.placed.mem, fun i' => ?_, h.placed.last⟩, fun i' j hj => ?_,
      h.returns⟩
    · show a.ring.lbNodesNow i' ≤ Function.update a.ring.lbNodesTot i tot i'
      by_cases hi : i' = i
      · rw [hi, hnow]
        exact Nat.zero_le _
      · rw [Function.update_of_ne hi]
        exact h.placed.now_le i'
    · replace hj : j < Function.update a.ring.lbNodesTot i tot i' := hj
      show Function.update a.key i _ i' j = _
      by_cases hi : i' = i
      · subst hi
        rw [Function.update_self] at hj
        rw [Function.update_self, if_pos hj]
      · rw [Function.update_of_ne hi] at hj ⊢
        exact h.keyed i' j hj
  have hnow₁ : a₁.ring.lbNodesNow = a.ring.lbNodesNow := by rw [← ha₁]
  split_ifs at hinit with hgranted husable
  · -- the server is usable: nodes join the ring
    obtain rfl := Option.some.inj hinit
    obtain ⟨-, -, hothers, -⟩ := ChashArr.queueDequeueSrv_spec hsound.placed hsound.keyed i
    refine ⟨hsound.queueDequeueSrv i, fun j hj => ?_⟩
    rw [(hothers j hj).1, hnow₁]
  · obtain rfl := Option.some.inj hinit
    exact ⟨hsound, fun j _ => congrFun hnow₁ j⟩

theorem ChashSound.initServers {a a' : ChashArr ι} (hn : l.Nodup) (h : ChashSound srv a)
    (hnow : ∀ i ∈ l, a.ring.lbNodesNow i = 0)
    (hinit : l.foldlM (ChashArr.initServer srv) a = some a') : ChashSound srv a' := by
  induction l generalizing a with
  | nil =>
    obtain rfl := Option.some.inj hinit
    exact h
  | cons i l ih =>
    rw [List.foldlM_cons] at hinit
    obtain ⟨a₁, hfirst, hrest⟩ := Option.bind_eq_some_iff.mp hinit
    obtain ⟨hi, hl⟩ := List.nodup_cons.mp hn
    obtain ⟨hsound, hothers⟩ := h.initServer (hnow i List.mem_cons_self) hfirst
    refine ih hl hsound (fun j hj => ?_) hrest
    rw [hothers j fun he => hi (he ▸ hj)]
    exact hnow j (List.mem_cons_of_mem i hj)

theorem chashSound_init (hinit : chashArrInitServerTree heap b = some b₀) :
    b₀.Meets b.px.srvs ChashSound := by
  obtain ⟨a, hfold, rfl⟩ := Option.map_eq_some_iff.mp hinit
  refine ⟨(balanced_init b).srvs, ?_⟩
  exact (chashSound_start _ heap).initServers (Proxy.nodup _) (fun _ _ => rfl) hfold

end Init

/-! ### Whole runs -/

/-- What `chash` does on its own, to the arrays. -/
def chashArrOps (ι : Type u) [DecidableEq ι] : LbOps ι (ChashArr ι) where
  subWeight := Proxy.subWeight
  addWeight := Proxy.addWeight
  chgWeight := Proxy.chgWeight
  unlink b i := b.px.lb.dequeueSrv b.srv i
  link b i := b.px.lb.queueDequeueSrv b.srv i
  relink b i := b.px.lb.queueDequeueSrv b.srv i

theorem ChashSound.update {srv : ι → Server} {a : ChashArr ι} (h : ChashSound srv a) (i : ι)
    {s : Server} (hs : s.rest = (srv i).rest) : ChashSound (Function.update srv i s) a := by
  apply h.congr
  · intro j
    by_cases hj : j = i
    · subst hj
      rw [Function.update_self]
      exact congrArg Server.Rest.backup hs
    · rw [Function.update_of_ne hj]
  · intro j
    by_cases hj : j = i
    · subst hj
      rw [Function.update_self]
      exact congrArg Server.Rest.puid hs
    · rw [Function.update_of_ne hj]

theorem chashSound_keeps (i : ι) : (chashArrOps ι).Keeps i ChashSound where
  subWeight_srvs := Proxy.subWeight_srvs
  addWeight_srvs := Proxy.addWeight_srvs
  chgWeight_srvs := Proxy.chgWeight_srvs
  server _ h hs _ := h.update i hs
  unlink {b} px h hlb _ _ := by
    have hlb' : px.lb = b.px.lb := hlb.trans (Proxy.subWeight_lb _ _)
    show ChashSound _ (px.lb.dequeueSrv b.srv i)
    rw [hlb']
    exact (h.dequeueSrv i).update i rfl
  link {b} px h hlb _ _ := by
    have hlb' : px.lb = b.px.lb := hlb.trans (Proxy.addWeight_lb _ _)
    show ChashSound _ (px.lb.queueDequeueSrv b.srv i)
    rw [hlb']
    exact (h.queueDequeueSrv i).update i rfl
  relink {b} px h hlb _ _ := by
    have hlb' : px.lb = b.px.lb := hlb.trans (Proxy.chgWeight_lb _ _)
    show ChashSound _ (px.lb.queueDequeueSrv b.srv i)
    rw [hlb']
    exact (h.queueDequeueSrv i).update i rfl

/-- The load of the servers and of the backend. -/
def Backend.setLoad (b : Backend ι L) (served queueLength : ι → UInt32) (beconn : UInt32) :
    Backend ι L where
  srv i := { b.srv i with served := served i, queueLength := queueLength i }
  px := { b.px with beconn := beconn }

/-- A server changes, the load changes, or a request takes the next server. -/
inductive ChashArrStep (track : ι → Option ι) :
    Backend ι (ChashArr ι) → Backend ι (ChashArr ι) → Prop
  | change {b b' : Backend ι (ChashArr ι)} (h : OpsStep (chashArrOps ι) track b b') :
      ChashArrStep track b b'
  | load (b : Backend ι (ChashArr ι)) (served queueLength : ι → UInt32) (beconn : UInt32) :
      ChashArrStep track b (b.setLoad served queueLength beconn)
  | pick {b b' : Backend ι (ChashArr ι)} (now : ℤ) (avoid : Option ι) (fuel : ℕ) (r : Option ι)
      (h : chashGetNextServer now b avoid fuel = some (r, b')) : ChashArrStep track b b'

theorem ChashArrStep.sound {b : Backend ι (ChashArr ι)} (h : b.Meets l ChashSound)
    (hstep : ChashArrStep track b b') : b'.Meets l ChashSound := by
  cases hstep with
  | change hchange => exact hchange.keeps (fun i _ => chashSound_keeps i) h
  | load served queueLength beconn =>
    exact ⟨h.1, h.2.congr (fun _ => rfl) (fun _ => rfl)⟩
  | pick now avoid fuel r hpick => exact chashGetNextServer_sound h hpick

/-- The invariant holds in every run. -/
theorem chashArrRun_sound (hinit : chashArrInitServerTree heap b = some b₀)
    (hrun : Relation.ReflTransGen (ChashArrStep track) b₀ b') : b'.Meets b.px.srvs ChashSound := by
  induction hrun with
  | refl => exact chashSound_init hinit
  | tail _ hstep ih => exact hstep.sound ih

/-- **Consistent-hash node occupancy.**  In every run from
`chash_init_server_tree` on, each call of `chash_queue_dequeue_srv` has left
behind exactly the nodes that the weight of its server asks for, or all of its
array, under their keys; and `last` is in a ring at any time. -/
theorem chash_nodes_exact (hinit : chashArrInitServerTree heap b = some b₀)
    (hrun : Relation.ReflTransGen (ChashArrStep track) b₀ b') :
    (∀ i s c, (i, s, c) ∈ b'.px.lb.returns → ChashExact i s c) ∧
      ∀ n, b'.px.lb.ring.last = some n → ∃ backup, n ∈ (b'.px.lb.ring.tree backup).items := by
  have hmeets := chashArrRun_sound hinit hrun
  exact ⟨fun i s c hr => hmeets.2.returns (i, s, c) hr, hmeets.2.placed.last_mem⟩

/-- The active server needs one more node than its array has. -/
def oneMoreNode : Change Bool := ⟨false, .running, 0, 17, by decide⟩

theorem oneMoreNode_step {heap : List Bool} {b₀ : Backend Bool (ChashArr Bool)}
    (hinit : chashArrInitServerTree heap twoServers = some b₀) :
    ChashArrStep (fun _ => none) b₀
      (updateServerWeight (chashArrOps Bool) (oneMoreNode.apply b₀) false) := by
  refine .change (.eweight b₀ oneMoreNode ?_)
  rw [(chashSound_init hinit).1]
  exact List.mem_cons_self

theorem chash_nodes_exact_oneMore : ∃ b₀ b' : Backend Bool (ChashArr Bool),
    chashArrInitServerTree [true, true, false] twoServers = some b₀ ∧
      ChashArrStep (fun _ => none) b₀ b' ∧ b'.px.lb.returns.length = 3 ∧
      (∀ i s c, (i, s, c) ∈ b'.px.lb.returns → ChashExact i s c) ∧
        ∀ n, b'.px.lb.ring.last = some n → ∃ backup, n ∈ (b'.px.lb.ring.tree backup).items := by
  have hreturns : ((chashArrInitServerTree [true, true, false] twoServers).map fun b₀ =>
      (updateServerWeight (chashArrOps Bool) (oneMoreNode.apply b₀) false).px.lb.returns.length) =
      some 3 := by decide +kernel
  obtain ⟨b₀, hinit, hlen⟩ := Option.map_eq_some_iff.mp hreturns
  have hstep := oneMoreNode_step hinit
  exact ⟨b₀, _, hinit, hstep, hlen,
    chash_nodes_exact hinit (Relation.ReflTransGen.single hstep)⟩

/-- In every run, `chash_queue_dequeue_srv` does to the rings, with the keys that it finds in the
arrays, what it would do with keys that are computed on the spot, also when a status or a weight
has changed that is not settled yet. -/
theorem chash_arrays_refine (hinit : chashArrInitServerTree heap b = some b₀)
    (hrun : Relation.ReflTransGen (ChashArrStep track) b₀ b') (i j : ι) {s : Server}
    (hs : s.rest = (b'.srv i).rest) :
    (b'.px.lb.queueDequeueSrv (Function.update b'.srv i s) j).ring =
      chashQueueDequeueSrv (Function.update b'.srv i s) b'.px.lb.ring j := by
  have hsound := (chashArrRun_sound hinit hrun).2.update i hs
  exact ChashArr.ring_queueDequeueSrv hsound.placed hsound.keyed j

/-- An array that has grown before grows once more. -/
theorem chash_arrays_refine_twice : ∃ b₀ b' : Backend Bool (ChashArr Bool),
    chashArrInitServerTree [true, true, true, true] twoServers = some b₀ ∧
      ChashArrStep (fun _ => none) b₀ b' ∧
      (b₀.px.lb.ring.lbNodesTot false = 16 ∧ b'.px.lb.ring.lbNodesTot false = 17) ∧
      let srv := Function.update b'.srv false { b'.srv false with nextEweight := 18 }
      (b'.px.lb.queueDequeueSrv srv false).ring.lbNodesNow false = 18 ∧
        (b'.px.lb.queueDequeueSrv srv false).ring =
          chashQueueDequeueSrv srv b'.px.lb.ring false := by
  have hnodes : ((chashArrInitServerTree [true, true, true, true] twoServers).map fun b₀ =>
      let b' := updateServerWeight (chashArrOps Bool) (oneMoreNode.apply b₀) false
      (b₀.px.lb.ring.lbNodesTot false, b'.px.lb.ring.lbNodesTot false,
        (b'.px.lb.queueDequeueSrv (Function.update b'.srv false
          { b'.srv false with nextEweight := 18 }) false).ring.lbNodesNow false)) =
      some (16, 17, 18) := by decide +kernel
  obtain ⟨b₀, hinit, hnodes⟩ := Option.map_eq_some_iff.mp hnodes
  obtain ⟨hbefore, hnodes⟩ := Prod.mk.inj hnodes
  obtain ⟨hgrown, hagain⟩ := Prod.mk.inj hnodes
  have hstep := oneMoreNode_step hinit
  exact ⟨b₀, _, hinit, hstep, ⟨hbefore, hgrown⟩, hagain,
    chash_arrays_refine hinit (Relation.ReflTransGen.single hstep) false false rfl⟩

end SmartHAProxy
