/-
Incremental accounting equals a full recount.

The four tree-based algorithms are put side by side, and a backend runs
through changes of its servers, each followed by the callback that
`srv_update_status` issues for it (or by `srv_update_status` itself, which
also decides which callback that is).  In every state reached the totals are
those that `recount_servers` and `update_backend_weight` would compute.

Main result: `tally_eq_recount`.
-/
import SmartHAProxy.Lb.FwrrLinks
import SmartHAProxy.Lb.Fwlc
import SmartHAProxy.Lb.Chash
import SmartHAProxy.Server.Update

namespace SmartHAProxy

universe u

/-! ### The four algorithms -/

/-- `lbprm.algo & BE_LB_LKUP`, for the lookups that use trees. -/
inductive Lookup
  | rrtree
  | lctree
  | chtree
  | fstree
  deriving DecidableEq, Repr

namespace Lookup

def State (ι : Type u) : Lookup → Type u
  | rrtree => Fwrr ι
  | lctree => LbTrees ι
  | chtree => Chash ι
  | fstree => LbTrees ι

variable {ι : Type u} [DecidableEq ι]

def ops : (k : Lookup) → LbOps ι (k.State ι)
  | rrtree => fwrrOps ι
  | lctree => treeOps fwlcKey
  | chtree => chashOps ι
  | fstree => treeOps fasKey

/-- The `init` function of the algorithm. -/
def init (heap : List Bool) (b : Backend ι Unit) : (k : Lookup) → Option (Backend ι (k.State ι))
  | rrtree => some (fwrrInitServerGroups b)
  | lctree => some (fwlcInitServerTree b)
  | chtree => chashInitServerTree heap b
  | fstree => some (fasInitServerTree b)

/-- The callbacks that the `init` function installs. -/
def callbacks : (k : Lookup) → LbCallbacks ι (k.State ι)
  | rrtree => ⟨some fwrrSetServerStatusDown, some fwrrSetServerStatusUp, some fwrrUpdateServerWeight⟩
  | lctree => ⟨some fwlcSetServerStatusDown, some fwlcSetServerStatusUp, some fwlcUpdateServerWeight⟩
  | chtree =>
    ⟨some chashSetServerStatusDown, some chashSetServerStatusUp, some chashUpdateServerWeight⟩
  | fstree => ⟨some fasSetServerStatusDown, some fasSetServerStatusUp, some fasUpdateServerWeight⟩

theorem callbacks_eq (k : Lookup) : (k.callbacks : LbCallbacks ι (k.State ι)) = k.ops.callbacks := by
  cases k <;> rfl

/-- Only `fwrr` keeps copies of the weights. -/
def Synced : (k : Lookup) → (ι → Standing) → k.State ι → UInt32 → UInt32 → Prop
  | rrtree => Fwrr.Synced
  | lctree => fun _ _ _ _ => True
  | chtree => fun _ _ _ _ => True
  | fstree => fun _ _ _ _ => True

theorem lawful : (k : Lookup) → (k.ops : LbOps ι (k.State ι)).Lawful k.Synced
  | rrtree => fwrrOps_lawful ι
  | lctree => treeOps_lawful fwlcKey
  | chtree => chashOps_lawful ι
  | fstree => treeOps_lawful fasKey

end Lookup

variable {ι : Type u} [DecidableEq ι]

theorem nextWeights_foldl_initServer (srv : ι → Server) (l : List ι) (f : Fwrr ι) :
    (l.foldl (fwrrInitServer srv) f).nextWeights = f.nextWeights := by
  induction l generalizing f with
  | nil => rfl
  | cons i l ih =>
    rw [List.foldl_cons, ih]
    unfold fwrrInitServer
    split_ifs
    · rfl
    · exact nextWeights_insert _ _ _ _ _

theorem balanced_of_init {k : Lookup} {heap : List Bool} {b : Backend ι Unit}
    {b₀ : Backend ι (k.State ι)} (h : k.init heap b = some b₀) :
    Balanced k.Synced b.px.srvs b₀ := by
  have hbal := balanced_init b
  cases k with
  | rrtree =>
    obtain rfl := Option.some.inj h
    refine hbal.setLb ⟨nextWeights_foldl_initServer _ _ _, ?_⟩
    exact (linked_start _ _).foldl_initServer (Proxy.nodup _) fun _ _ => rfl
  | lctree =>
    obtain rfl := Option.some.inj h
    exact hbal.setLb trivial
  | chtree =>
    obtain ⟨c, -, rfl⟩ := Option.map_eq_some_iff.mp h
    exact hbal.setLb trivial
  | fstree =>
    obtain rfl := Option.some.inj h
    exact hbal.setLb trivial

/-! ### Runs -/

/-- New pending values for a server; effective weights go up to 4096. -/
structure Change (ι : Type u) where
  server : ι
  nextState : SrvState
  nextAdmin : SrvAdmin
  nextEweight : UInt32
  nextEweight_le : nextEweight ≤ srvEwghtMax

def Change.apply {L : Type*} (c : Change ι) (b : Backend ι L) : Backend ι L :=
  b.updSrv c.server fun s =>
    { s with
      nextState := c.nextState
      nextAdmin := c.nextAdmin
      nextEweight := c.nextEweight }

/-- A server of the backend is changed and the algorithm is told.  The callback
for servers that go down is issued for a server that will not be usable, the
one for servers that come up for a server that was not usable and will be, and
the one for weights at any time; `srvUpdateStatus` chooses by itself. -/
inductive LbStep (k : Lookup) (track : ι → Option ι) :
    Backend ι (k.State ι) → Backend ι (k.State ι) → Prop
  | down (b : Backend ι (k.State ι)) (c : Change ι) (hc : c.server ∈ b.px.srvs)
      (hw : ((c.apply b).srv c.server).willbeUsable = false) :
      LbStep k track b (callback k.callbacks.setServerStatusDown (c.apply b) c.server)
  | up (b : Backend ι (k.State ι)) (c : Change ι) (hc : c.server ∈ b.px.srvs)
      (hu : ((c.apply b).srv c.server).currentlyUsable = false)
      (hw : ((c.apply b).srv c.server).willbeUsable = true) :
      LbStep k track b (callback k.callbacks.setServerStatusUp (c.apply b) c.server)
  | eweight (b : Backend ι (k.State ι)) (c : Change ι) (hc : c.server ∈ b.px.srvs) :
      LbStep k track b (callback k.callbacks.updateServerEweight (c.apply b) c.server)
  | update (b : Backend ι (k.State ι)) (c : Change ι) (hc : c.server ∈ b.px.srvs) (now : ℤ) :
      LbStep k track b (srvUpdateStatus k.callbacks now track (c.apply b) c.server)

theorem Balanced.step {k : Lookup} {l : List ι} {track : ι → Option ι}
    {b b' : Backend ι (k.State ι)} (h : Balanced k.Synced l b) (hstep : LbStep k track b b') :
    Balanced k.Synced l b' := by
  have hpend (c : Change ι) : Pending k.Synced l (c.apply b) c.server :=
    (h.pending c.server).updSrv rfl
  cases hstep with
  | down c hc hw =>
    rw [k.callbacks_eq]
    exact (hpend c).setServerStatusDown k.lawful (h.srvs ▸ hc) hw
  | up c hc hu hw =>
    rw [k.callbacks_eq]
    exact (hpend c).setServerStatusUp k.lawful (h.srvs ▸ hc) hu hw
  | eweight c hc =>
    rw [k.callbacks_eq]
    exact (hpend c).updateServerWeight k.lawful (h.srvs ▸ hc)
  | update c hc now =>
    rw [k.callbacks_eq]
    exact (hpend c).srvUpdateStatus k.lawful (h.srvs ▸ hc) track now

/-- **Incremental accounting equals a full recount**, for each of the four
algorithms, from its `init` function on and after any sequence of changes. -/
theorem tally_eq_recount {k : Lookup} {heap : List Bool} {track : ι → Option ι}
    {b : Backend ι Unit} {b₀ b₁ : Backend ι (k.State ι)} (hinit : k.init heap b = some b₀)
    (hrun : Relation.ReflTransGen (LbStep k track) b₀ b₁) :
    b₁.px.tally = (updateBackendWeight (recountServers b₁)).px.tally := by
  have hbal : Balanced k.Synced b.px.srvs b₁ := by
    induction hrun with
    | refl => exact balanced_of_init hinit
    | tail _ hstep ih => exact ih.step hstep
  rw [tally_recountServers, hbal.srvs]
  exact hbal.tally

/-- A proxy with an active server `false` and a backup server `true`. -/
def twoServers : Backend Bool Unit where
  srv backup := { serverS1 with backup := backup }
  px := newProxy [false, true] nodup_falseTrue

/-- The active server of a least-connections backend loses its weight. -/
def zeroWeight : Change Bool := ⟨false, .running, 0, 0, by decide⟩

theorem tally_eq_recount_zeroWeight :
    let b₀ := fwlcInitServerTree twoServers
    let b₁ := fwlcUpdateServerWeight (zeroWeight.apply b₀) zeroWeight.server
    b₁.px.tally = (updateBackendWeight (recountServers b₁)).px.tally := by
  intro b₀ b₁
  have hinit : Lookup.init [] twoServers .lctree = some b₀ := rfl
  have hstep : LbStep .lctree (fun _ => none) b₀ b₁ :=
    LbStep.eweight (k := .lctree) b₀ zeroWeight (by decide)
  exact tally_eq_recount hinit (Relation.ReflTransGen.single hstep)

end SmartHAProxy
