/-
Fast weighted round robin: the keys of `curr`, over whole runs (lb_fwrr.c).

A status or weight change is a sequence of moves (`FwrrStep.moves`), and each
of them keeps the keys right under two conditions.  Positions are below twice
the weight of the group, so that half of the documented number of servers is
the limit; and a server that comes up still has the remainder that it had under
its old weight, which has to be below the new one.
-/
import SmartHAProxy.Lb.FwrrKeys

namespace SmartHAProxy

universe u

variable {ι : Type u} [DecidableEq ι]

/-! ### Conditions and conclusion -/

/-- The effective weights are in their range, and those of a group sum to at
most 2^23. -/
structure FwrrWithin (b : Backend ι (Fwrr ι)) : Prop where
  weight : ∀ i ∈ b.px.srvs, (b.srv i).curEweight ≤ srvEwghtMax
  total : ∀ backup, (b.px.lb.grp backup).nextWeight.toNat ≤ 2 ^ 23

/-- A server that comes up has a remainder below its new weight. -/
def RemaindersFit (b b' : Backend ι (Fwrr ι)) : Prop :=
  ∀ i ∈ b.px.srvs, (b.srv i).currentlyUsable = false → (b'.srv i).currentlyUsable = true →
    b.px.lb.rweight i < (b'.srv i).curEweight

/-- The keys in `curr` are right, and it is ordered by the positions. -/
structure FwrrFaithful (b : Backend ι (Fwrr ι)) : Prop where
  fits : ∀ {backup key i}, (key, i) ∈ (b.px.lb.grp backup).curr.nodes →
    KeyFits key (b.px.lb.npos i) (b.px.lb.rweight i) (b.srv i).curEweight
  npos : ∀ {backup key i}, (key, i) ∈ (b.px.lb.grp backup).curr.nodes →
    key.toNat / 256 = (b.px.lb.npos i).toNat
  order : ∀ backup,
    ((b.px.lb.grp backup).curr.items.map b.px.lb.npos).Pairwise (· ≤ ·)

/-! ### Moves -/

theorem notMem_curr_of_not_usable {l : List ι} {srv : ι → Server} {f : Fwrr ι} {i : ι}
    (h : Linked (standings l srv) f []) (hc : (srv i).currentlyUsable = false) (backup : Bool) :
    i ∉ (f.grp backup).curr.items := by
  intro hmem
  have hmem' : i ∈ ((f.grp backup).tree .curr).items := hmem
  obtain ⟨-, hu, -⟩ := usable_of_standings (h.standing_of_mem hmem')
  rw [hc] at hu
  cases hu

/-- The next weight of a group changes. -/
structure OnlyNextWeight (f f' : Fwrr ι) : Prop where
  linked : ∀ {st}, Linked st f [] → Linked st f' []
  keyed : ∀ {srv}, FwrrKeyed srv f → FwrrKeyed srv f'
  rweight : f'.rweight = f.rweight

theorem onlyNextWeight_updGrp (f : Fwrr ι) (backup : Bool) (w : FwrrGroup ι → UInt32) :
    OnlyNextWeight f (f.updGrp backup fun g => { g with nextWeight := w g }) where
  linked h := h.updGrp_nextWeight backup w
  keyed h := h.updGrp backup (fun _ => rfl) (h.range backup)
  rweight := Fwrr.rweight_updGrp ..

theorem onlyNextWeight_moveWeight (px : Proxy ι (Fwrr ι)) (backup : Bool)
    (w : UInt32 → UInt32) : OnlyNextWeight px.lb (fwrrMoveWeight px backup w).lb := by
  have hlb : (fwrrMoveWeight px backup w).lb =
      px.lb.updGrp backup fun g => { g with nextWeight := w g.nextWeight } := by
    unfold fwrrMoveWeight
    dsimp only
    split <;> rfl
  rw [hlb]
  exact onlyNextWeight_updGrp ..

/-- **A move keeps the keys right**, if the remainder of a server that comes up fits. -/
theorem FwrrKeyed.move {l : List ι} {i : ι} {x y : (ι → Server) × Fwrr ι} (hi : i ∈ l)
    (hmove : (fwrrOps ι).Move i x y) (hlinked : Linked (standings l x.1) x.2 [])
    (hkeyed : FwrrKeyed x.1 x.2) (hle : (y.1 i).curEweight ≤ srvEwghtMax)
    (hrem : (x.1 i).currentlyUsable = false → (y.1 i).currentlyUsable = true →
      x.2.rweight i < (y.1 i).curEweight) :
    Linked (standings l y.1) y.2 [] ∧ FwrrKeyed y.1 y.2 := by
  cases hmove with
  | @server srv f s hrest hstanding =>
    dsimp only at *
    refine ⟨?_, hkeyed.congr fun backup j hj => ?_⟩
    · rw [standings_update hstanding]
      exact hlinked
    · by_cases hji : j = i
      · subst hji
        have hj' : j ∈ ((f.grp backup).tree .curr).items := hj
        obtain ⟨-, hu, -⟩ := usable_of_standings (hlinked.standing_of_mem hj')
        rw [Function.update_self]
        exact (currentlyUsable_of_standing hstanding hu).2
      · rw [Function.update_of_ne hji]
  | @unlink b px hlb hc hw =>
    dsimp only at *
    have honly : OnlyNextWeight b.px.lb px.lb := hlb ▸ onlyNextWeight_moveWeight ..
    have hl := honly.linked hlinked
    -- a server that leaves is in no tree any more
    rw [standings_commit hi, Server.nextStanding_of_not_usable hw]
    refine ⟨(hl.dequeueSrv i).removeFromTree, ?_⟩
    have hdeq : FewerInCurr px.lb (fwrrDequeueSrv px.lb i) :=
      .dequeueSrv ⟨rfl, rfl, rfl⟩ (fun _ _ => rfl) (fun _ _ => rfl)
    have hkeyed' := (hdeq.keyed (honly.keyed hkeyed)).commit
      (notMem_curr_dequeueSrv px.lb i) (b.srv i).lbCommitStatus
    exact ⟨hkeyed'.fits, hkeyed'.range⟩
  | @link b px hlb hc hw =>
    dsimp only at *
    have honly : OnlyNextWeight b.px.lb px.lb := hlb ▸ onlyNextWeight_moveWeight ..
    have hl := honly.linked hlinked
    have hnone : standings l b.srv i = none := by
      rw [standings, if_pos hi, Server.curStanding_of_not_usable hc]
    rw [Function.update_self] at hle hrem
    rw [standings_commit hi]
    refine ⟨?_, (honly.keyed hkeyed).place hl.slots (notMem_curr_of_not_usable hl hc) hw hle ?_⟩
    · refine ((hl.hold hnone).update _).place List.not_mem_nil hw ?_
      rw [Function.update_self, Server.nextStanding_of_usable hw]
      rfl
    · rw [honly.rweight]
      exact hrem hc hw
  | @relink b px hlb hc hw =>
    dsimp only at *
    have honly : OnlyNextWeight b.px.lb px.lb := by
      rw [hlb]
      exact onlyNextWeight_updGrp b.px.lb (b.srv i).backup fun g =>
        g.nextWeight - (b.srv i).curEweight + (b.srv i).nextEweight
    have hl := honly.linked hlinked
    rw [Function.update_self] at hle
    rw [standings_commit hi]
    refine ⟨hl.replace hw, (honly.keyed hkeyed).replace hl ?_ hw hle⟩
    rw [standings, if_pos hi, Server.curStanding_of_usable hc]
    rfl

/-! ### The run -/

/-- A move of a status or weight change, a new load, or a call of
`fwrr_get_next_server` while no change is pending. -/
inductive FwrrMove : Backend ι (Fwrr ι) → Backend ι (Fwrr ι) → Prop
  | status {b b' : Backend ι (Fwrr ι)} {i : ι} (hi : i ∈ b.px.srvs)
      (hsrvs : b'.px.srvs = b.px.srvs)
      (h : (fwrrOps ι).Move i (b.srv, b.px.lb) (b'.srv, b'.px.lb)) : FwrrMove b b'
  | load (b : Backend ι (Fwrr ι)) (l : Load ι) : FwrrMove b (l.apply b)
  | next {b b' : Backend ι (Fwrr ι)} {now : ℤ} {srvtoavoid : Option ι} {servers : CStr}
      {srv : Option ι} (hsettled : ∀ i ∈ b.px.srvs, (b.srv i).Settled)
      (h : fwrrGetNextServer now b srvtoavoid servers = some (b', srv)) : FwrrMove b b'

/-- What holds in every state of a run. -/
structure FwrrSound (l : List ι) (b : Backend ι (Fwrr ι)) : Prop where
  srvs : b.px.srvs = l
  linked : Linked (standings l b.srv) b.px.lb []
  keyed : FwrrKeyed b.srv b.px.lb
  within : FwrrWithin b

namespace FwrrSound

variable {l : List ι} {b b' : Backend ι (Fwrr ι)}

theorem hand (h : FwrrSound l b) : FwrrHand b.srv (standings l b.srv) b.px.lb [] :=
  ⟨h.linked, h.keyed, fun _ hi => absurd hi List.not_mem_nil, h.within.total⟩

theorem next (h : FwrrSound l b) {now : ℤ} {srvtoavoid : Option ι} {servers : CStr}
    {srv : Option ι} (hsettled : ∀ i ∈ b.px.srvs, (b.srv i).Settled)
    (hnext : fwrrGetNextServer now b srvtoavoid servers = some (b', srv)) : FwrrSound l b' := by
  have hcommitted {i : ι} {backup : Bool}
      (hst : (standings l b.srv i).map Prod.fst = some backup) : i ∈ b.px.srvs ∧
        (b.srv i).backup = backup ∧ (b.srv i).nextStanding = some (backup, (b.srv i).curEweight) ∧
        (b.srv i).curEweight ≠ 0 := by
    obtain ⟨hi, hu, hb⟩ := usable_of_standings hst
    rw [← h.srvs] at hi
    refine ⟨hi, hb, ?_, Server.eweight_ne_zero_of_usableWith hu⟩
    rw [← hsettled i hi, Server.curStanding_of_usable hu, hb]
  have husable : StandingsUsable b.srv (standings l b.srv) := by
    intro i backup hst
    obtain ⟨-, hb, hnext, -⟩ := hcommitted hst
    refine ⟨?_, hb⟩
    by_contra hw
    rw [Server.nextStanding_of_not_usable (by simpa using hw)] at hnext
    cases hnext
  have hweighted : StandingsWeighted b.srv (standings l b.srv) := by
    intro i backup hst
    obtain ⟨hi, -, hnext, hne⟩ := hcommitted hst
    refine ⟨UInt32.pos_iff_ne_zero.mpr hne, h.within.weight i hi, ?_⟩
    rw [Server.nextStanding_of_usable (husable i backup hst).1] at hnext
    exact congrArg Prod.snd (Option.some.inj hnext)
  have hpicked {backup : Bool}
      (hp : (fwrrPick b.srv (fwrrCriteria now b srvtoavoid servers) backup b.px.lb).map
        (fun r => (b.setLb r.1, r.2)) = some (b', srv)) : FwrrSound l b' := by
    obtain ⟨r, hr, he⟩ := Option.map_eq_some_iff.mp hp
    obtain ⟨rfl, -⟩ := Prod.mk.inj he
    have hand := h.hand.pick husable hweighted _ hr
    exact ⟨h.srvs, hand.linked, hand.keyed, ⟨h.within.weight, hand.next⟩⟩
  unfold fwrrGetNextServer at hnext
  dsimp only at hnext
  split_ifs at hnext
  · obtain rfl := (Prod.mk.inj (Option.some.inj hnext)).1
    exact h
  · exact hpicked hnext
  · obtain rfl := (Prod.mk.inj (Option.some.inj hnext)).1
    exact h
  · exact hpicked hnext
  · obtain rfl := (Prod.mk.inj (Option.some.inj hnext)).1
    exact h

theorem move (h : FwrrSound l b) (hmove : FwrrMove b b') (hwithin : FwrrWithin b')
    (hrem : RemaindersFit b b') : FwrrSound l b' := by
  cases hmove with
  | status hi hsrvs hstatus =>
    rename_i i
    have hi' : i ∈ b'.px.srvs := hsrvs ▸ hi
    obtain ⟨hlinked, hkeyed⟩ := FwrrKeyed.move (h.srvs ▸ hi) hstatus h.linked h.keyed
      (hwithin.weight i hi') (hrem i hi)
    exact ⟨hsrvs.trans h.srvs, hlinked, hkeyed, hwithin⟩
  | load d => exact ⟨h.srvs, h.linked, h.keyed.congr fun _ _ _ => rfl, hwithin⟩
  | next hsettled hnext => exact h.next hsettled hnext

end FwrrSound

theorem fewerInCurr_initServer (srv : ι → Server) {f : Fwrr ι} (i : ι)
    (hslots : ∀ backup, (f.grp backup).Slots) : FewerInCurr f (fwrrInitServer srv f i) ∧
      ∀ backup, ((fwrrInitServer srv f i).grp backup).Slots := by
  unfold fwrrInitServer
  split_ifs
  · exact ⟨⟨fun hn => ⟨hn, rfl, rfl⟩, fun _ => rfl⟩, hslots⟩
  · refine ⟨fewerInCurr_insert _ _ (hslots _).trees.2.1 _ i, fun backup => ?_⟩
    show ((f.updGrp (srv i).backup _).grp backup).Slots
    rw [Fwrr.grp_updGrp]
    split_ifs
    · rw [FwrrGroup.Slots, FwrrGroup.setTree_init, FwrrGroup.setTree_next]
      exact hslots _
    · exact hslots backup

theorem fewerInCurr_foldl_initServer (srv : ι → Server) (l : List ι) {f : Fwrr ι}
    (hslots : ∀ backup, (f.grp backup).Slots) :
    FewerInCurr f (l.foldl (fwrrInitServer srv) f) := by
  induction l generalizing f with
  | nil => exact ⟨fun hn => ⟨hn, rfl, rfl⟩, fun _ => rfl⟩
  | cons i l ih =>
    obtain ⟨hfewer, hslots'⟩ := fewerInCurr_initServer srv i hslots
    exact hfewer.trans (ih hslots')

theorem fwrrSound_init {b : Backend ι Unit} (hwithin : FwrrWithin (fwrrInitServerGroups b)) :
    FwrrSound b.px.srvs (fwrrInitServerGroups b) := by
  have hinit : Lookup.init [] b .rrtree = some (fwrrInitServerGroups b) := rfl
  have hbal : Balanced Fwrr.Synced b.px.srvs (fwrrInitServerGroups b) := balanced_of_init hinit
  have hst : (fwrrInitServerGroups b).committed =
      standings b.px.srvs (fwrrInitServerGroups b).srv := by
    funext i
    rw [Backend.committed, hbal.srvs]
    rfl
  refine ⟨hbal.srvs, hst ▸ hbal.synced.2, ?_, hwithin⟩
  -- nothing is in `curr` yet, and both weights of a group are its total
  obtain ⟨b₁, hb₁⟩ : ∃ b₁, b₁ = updateBackendWeight (recountServers b.initEweights) := ⟨_, rfl⟩
  have hlb : (fwrrInitServerGroups b).px.lb =
      b₁.px.srvs.foldl (fwrrInitServer b₁.srv) (.start b₁.px.totWact b₁.px.totWbck) := by
    rw [hb₁]
    rfl
  have hfewer := fewerInCurr_foldl_initServer b₁.srv b₁.px.srvs
    (linked_start b₁.px.totWact b₁.px.totWbck).slots
  have hnext := nextWeights_foldl_initServer b₁.srv b₁.px.srvs
    (.start b₁.px.totWact b₁.px.totWbck)
  rw [← hlb] at hfewer hnext
  refine hfewer.keyed ⟨fun {backup key i} hn => ?_, fun backup => ?_⟩
  · cases backup <;> exact absurd hn List.not_mem_nil
  · have htotal := hwithin.total backup
    rw [Fwrr.nextWeight_eq hnext] at htotal
    cases backup
    · exact htotal
    · exact htotal

/-- **The order of the keys is the order of the positions.** -/
theorem FwrrSound.faithful {l : List ι} {b : Backend ι (Fwrr ι)} (h : FwrrSound l b) :
    FwrrFaithful b where
  fits := h.keyed.fits
  npos hn := (h.keyed.fits hn).npos_eq
  order backup := by
    rw [EbTree.items, List.map_map, List.pairwise_map]
    refine (b.px.lb.grp backup).curr.sorted.imp_of_mem fun hn hm hle => ?_
    have hn' := (h.keyed.fits hn).npos_eq
    have hm' := (h.keyed.fits hm).npos_eq
    rw [UInt32.le_iff_toNat_le, Function.comp_apply, Function.comp_apply, ← hn', ← hm']
    exact Nat.div_le_div_right (UInt32.le_iff_toNat_le.mp hle)

/-- **FWRR sorting key faithfulness.**  In every run in which the weights of a
group sum to at most 2^23 and each server that comes up has a remainder below
its new weight, the keys in `curr` do not wrap around and order it by `npos`. -/
theorem fwrr_keys_faithful {b : Backend ι Unit} {b' : Backend ι (Fwrr ι)}
    (hinit : FwrrWithin (fwrrInitServerGroups b))
    (hrun : Relation.ReflTransGen
      (fun b b' => FwrrMove b b' ∧ FwrrWithin b' ∧ RemaindersFit b b')
      (fwrrInitServerGroups b) b') : FwrrFaithful b' := by
  have hsound : FwrrSound b.px.srvs b' := by
    induction hrun with
    | refl => exact fwrrSound_init hinit
    | tail _ hstep ih =>
      obtain ⟨hmove, hwithin, hrem⟩ := hstep
      exact ih.move hmove hwithin hrem
  exact hsound.faithful

theorem FwrrMove.of_eq {b b' : Backend ι (Fwrr ι)} {i : ι} (hi : i ∈ b.px.srvs)
    (hsrvs : b'.px.srvs = b.px.srvs) (hsrv : b'.srv = b.srv) (hlb : b'.px.lb = b.px.lb) :
    FwrrMove b b' := by
  refine .status hi hsrvs ?_
  have hmove : (fwrrOps ι).Move i (b.srv, b.px.lb)
      (Function.update b.srv i (b.srv i), b.px.lb) := .server (b.srv i) rfl rfl
  rw [Function.update_eq_self] at hmove
  rw [hsrv, hlb]
  exact hmove

/-- **Every step of the code is a sequence of moves.** -/
theorem FwrrStep.moves {track : ι → Option ι} {l : List ι} {b b' : Backend ι (Fwrr ι)}
    (h : Balanced Fwrr.Synced l b) (hstep : FwrrStep track b b') :
    Relation.ReflTransGen FwrrMove b b' := by
  cases hstep with
  | status hstatus =>
    obtain ⟨i, hi, hsrvs, hmoves⟩ := hstatus.opsStep.moves
      (fun px s => (Lookup.rrtree.srvs_weights px s).1)
      (fun px s => (Lookup.rrtree.srvs_weights px s).2.1)
      (fun px s => (Lookup.rrtree.srvs_weights px s).2.2)
    -- the rest of the backend changes along with the last move
    have hpath : ∀ x, Relation.ReflTransGen ((fwrrOps ι).Move i) (b.srv, b.px.lb) x →
        ∀ c : Backend ι (Fwrr ι), (c.srv, c.px.lb) = x → c.px.srvs = b.px.srvs →
          Relation.ReflTransGen FwrrMove b c := by
      intro x hx
      induction hx with
      | refl =>
        intro c hc hcs
        obtain ⟨hsrv, hlb⟩ := Prod.mk.inj hc
        exact .single (.of_eq hi hcs hsrv hlb)
      | @tail y z _ hyz ih =>
        intro c hc hcs
        have hy := ih ⟨y.1, c.px.withLb y.2⟩ rfl hcs
        refine hy.tail (.status (i := i) ?_ rfl ?_)
        · show i ∈ c.px.srvs
          rw [hcs]
          exact hi
        · rw [hc]
          exact hyz
    exact hpath _ hmoves b' rfl hsrvs
  | load d => exact .single (.load b d)
  | next hnext =>
    refine .single (.next (fun i hi => ?_) hnext)
    exact h.settled i (h.srvs ▸ hi)

/-- Every run of the steps of the code is a run of moves: each status or weight change is one of
single moves of one server, so that what moves keep is kept by the code. -/
theorem fwrr_run_moves {track : ι → Option ι} {b : Backend ι Unit} {b' : Backend ι (Fwrr ι)}
    (hrun : Relation.ReflTransGen (FwrrStep track) (fwrrInitServerGroups b) b') :
    Relation.ReflTransGen FwrrMove (fwrrInitServerGroups b) b' := by
  have hinit : Lookup.init [] b .rrtree = some (fwrrInitServerGroups b) := rfl
  have hboth : Balanced Fwrr.Synced b.px.srvs b' ∧
      Relation.ReflTransGen FwrrMove (fwrrInitServerGroups b) b' := by
    induction hrun with
    | refl => exact ⟨balanced_of_init hinit, .refl⟩
    | tail _ hstep ih => exact ⟨ih.1.fwrrStep hstep, ih.2.trans (hstep.moves ih.1)⟩
  exact hboth.2

/-- The active server `false` tracks the backup server, and takes over its maintenance. -/
def trackBackup (i : Bool) : Option Bool := if i then none else some true

def inheritAdmin (state : SrvState) (admin : SrvAdmin) (b : Backend Bool (Fwrr Bool)) :
    Backend Bool (Fwrr Bool) :=
  srvUpdateStatus Lookup.rrtree.callbacks 0 trackBackup
    (Change.apply ⟨false, state, admin, beWeightScale, by decide⟩ b) false

/-- The server is picked, leaves its tree for maintenance and comes back. -/
theorem fwrr_run_moves_maintenance : ∃ b₁ b₂ b₃ : Backend Bool (Fwrr Bool),
    Relation.ReflTransGen FwrrMove (fwrrInitServerGroups twoServers) b₃ ∧
    b₂ = inheritAdmin .running .imaint b₁ ∧ b₃ = inheritAdmin .stopped 0 b₂ ∧
    b₁.px.lb.act.curr.items = [false] ∧ b₂.px.lb.act.curr.items = [] ∧
    b₃.px.lb.act.curr.items = [false] := by
  have hpick : (fwrrGetNextServer 0 (fwrrInitServerGroups twoServers) none (bytes "1")).map
      (fun r =>
      let b₂ := inheritAdmin .running .imaint r.1
      (r.1.px.srvs, b₂.px.srvs, r.1.px.lb.act.curr.items, b₂.px.lb.act.curr.items,
        (inheritAdmin .stopped 0 b₂).px.lb.act.curr.items))
      = some ([false, true], [false, true], [false], [], [false]) := by decide +kernel
  obtain ⟨⟨b₁, r⟩, hnext, hall⟩ := Option.map_eq_some_iff.mp hpick
  obtain ⟨hsrvs₁, hall⟩ := Prod.mk.inj hall
  obtain ⟨hsrvs₂, hall⟩ := Prod.mk.inj hall
  obtain ⟨hcurr₁, hall⟩ := Prod.mk.inj hall
  obtain ⟨hcurr₂, hcurr₃⟩ := Prod.mk.inj hall
  have hstep (state : SrvState) (admin : SrvAdmin) {b : Backend Bool (Fwrr Bool)}
      (hb : b.px.srvs = [false, true]) : FwrrStep trackBackup b (inheritAdmin state admin b) := by
    refine .status (LbStep.update (k := .rrtree) b
      ⟨false, state, admin, beWeightScale, by decide⟩ ?_ 0)
    show false ∈ b.px.srvs
    rw [hb]
    decide
  have hrun : Relation.ReflTransGen (FwrrStep trackBackup) (fwrrInitServerGroups twoServers) b₁ :=
    .single (.next hnext)
  exact ⟨b₁, _, _, fwrr_run_moves ((hrun.tail (hstep .running .imaint hsrvs₁)).tail
    (hstep .stopped 0 hsrvs₂)), rfl, rfl, hcurr₁, hcurr₂, hcurr₃⟩

/-! ### Two servers -/

/-- Two active servers with the weights 3 and 2. -/
def threeAndTwo : Backend Bool Unit where
  srv i := { serverS1 with uweight := if i then 2 else 3 }
  px := newProxy [false, true] nodup_falseTrue

theorem balanced_threeAndTwo :
    Balanced Fwrr.Synced [false, true] (fwrrInitServerGroups threeAndTwo) := by
  have hinit : Lookup.init [] threeAndTwo .rrtree = some (fwrrInitServerGroups threeAndTwo) := rfl
  exact balanced_of_init hinit

/-- The heavier server is picked: it is placed in `curr`. -/
theorem fwrr_keys_faithful_onePick : ∃ b₁ : Backend Bool (Fwrr Bool),
    fwrrGetNextServer 0 (fwrrInitServerGroups threeAndTwo) none (bytes "1") =
      some (b₁, some false) ∧ b₁.px.lb.act.curr.items = [false] ∧ FwrrFaithful b₁ := by
  have hrun : (fwrrGetNextServer 0 (fwrrInitServerGroups threeAndTwo) none (bytes "1")).map
      (fun r => (r.2, r.1.px.srvs, r.1.px.srvs.map fun i => (r.1.srv i).curEweight,
        r.1.px.lb.nextWeights, r.1.px.lb.act.curr.items)) =
      some (some false, [false, true], [48, 32], (80, 0), [false]) := by decide +kernel
  obtain ⟨⟨b₁, r⟩, hpick, he⟩ := Option.map_eq_some_iff.mp hrun
  simp only [Prod.mk.injEq] at he
  obtain ⟨rfl, hsrvs, hweights, hnext, hcurr⟩ := he
  have hinit : FwrrWithin (fwrrInitServerGroups threeAndTwo) := ⟨by decide, by decide⟩
  have hsettled : ∀ i ∈ (fwrrInitServerGroups threeAndTwo).px.srvs,
      ((fwrrInitServerGroups threeAndTwo).srv i).Settled := by
    exact balanced_threeAndTwo.settled
  have hwithin : FwrrWithin b₁ := by
    refine ⟨?_, fun backup => ?_⟩
    · rw [hsrvs] at hweights ⊢
      simp only [List.map_cons, List.map_nil, List.cons.injEq, and_true] at hweights
      simp only [List.forall_mem_cons, List.not_mem_nil, false_imp_iff, implies_true, and_true]
      rw [hweights.1, hweights.2]
      decide
    · obtain ⟨hact, hbck⟩ := Prod.mk.inj hnext
      cases backup
      · show b₁.px.lb.act.nextWeight.toNat ≤ 2 ^ 23
        rw [hact]
        decide
      · show b₁.px.lb.bck.nextWeight.toNat ≤ 2 ^ 23
        rw [hbck]
        decide
  have hrem : RemaindersFit (fwrrInitServerGroups threeAndTwo) b₁ := by
    have husable : ∀ i, ((fwrrInitServerGroups threeAndTwo).srv i).currentlyUsable = true := by
      decide
    intro i _ hdown
    rw [husable] at hdown
    cases hdown
  exact ⟨b₁, hpick, hcurr,
    fwrr_keys_faithful hinit (.single ⟨.next hsettled hpick, hwithin, hrem⟩)⟩

theorem fwrrStep_eweight (track : ι → Option ι) (b : Backend ι (Fwrr ι)) (c : Change ι)
    (hc : c.server ∈ b.px.srvs) :
    FwrrStep track b (fwrrUpdateServerWeight (c.apply b) c.server) :=
  .status (LbStep.eweight (k := .rrtree) b c hc)

/-- The heavier server loses its weight. -/
def threeToZero : Change Bool := zeroWeight

/-- The server comes back with a weight of 1. -/
def zeroToOne : Change Bool := ⟨false, .running, 0, 16, by decide⟩

/-- The heavier server is picked, loses its weight and comes back with a weight
of 1.  It still has the remainder 32 of its old weight. -/
theorem not_fwrr_keys_faithful :
    ¬ ∀ b' : Backend Bool (Fwrr Bool),
      Relation.ReflTransGen (FwrrStep fun _ => none) (fwrrInitServerGroups threeAndTwo) b' →
        FwrrFaithful b' := by
  intro h
  have hrun : (fwrrGetNextServer 0 (fwrrInitServerGroups threeAndTwo) none (bytes "1")).map
      (fun r =>
        let b₂ := fwrrUpdateServerWeight (threeToZero.apply r.1) false
        let b₃ := fwrrUpdateServerWeight (zeroToOne.apply b₂) false
        (b₃.px.lb.act.curr.nodes.map fun n => (n.1.toNat / 256, b₃.px.lb.npos n.2))) =
      some [(84, 83)] := by decide +kernel
  obtain ⟨⟨b₁, r⟩, hpick, hnodes⟩ := Option.map_eq_some_iff.mp hrun
  have hstep₁ : FwrrStep (fun _ => none) (fwrrInitServerGroups threeAndTwo) b₁ := .next hpick
  have hbal₁ := balanced_threeAndTwo.fwrrStep hstep₁
  have hc₁ : threeToZero.server ∈ b₁.px.srvs := by
    rw [hbal₁.srvs]
    decide
  have hstep₂ := fwrrStep_eweight (fun _ => none) b₁ threeToZero hc₁
  have hbal₂ := hbal₁.fwrrStep hstep₂
  have hc₂ : zeroToOne.server ∈
      (fwrrUpdateServerWeight (threeToZero.apply b₁) threeToZero.server).px.srvs := by
    rw [hbal₂.srvs]
    decide
  have hstep₃ := fwrrStep_eweight (fun _ => none) _ zeroToOne hc₂
  obtain ⟨b₃, hb₃⟩ : ∃ b₃, b₃ = fwrrUpdateServerWeight
      (zeroToOne.apply (fwrrUpdateServerWeight (threeToZero.apply b₁) false)) false := ⟨_, rfl⟩
  replace hnodes : (b₃.px.lb.act.curr.nodes.map fun n => (n.1.toNat / 256, b₃.px.lb.npos n.2)) =
      [(84, 83)] := hb₃ ▸ hnodes
  have hfaithful : FwrrFaithful b₃ := by
    rw [hb₃]
    exact h _ (((Relation.ReflTransGen.single hstep₁).tail hstep₂).tail hstep₃)
  have hmem : ((84 : ℕ), (83 : UInt32)) ∈
      b₃.px.lb.act.curr.nodes.map fun n => (n.1.toNat / 256, b₃.px.lb.npos n.2) := by
    rw [hnodes]
    exact List.mem_singleton_self _
  obtain ⟨⟨key, i⟩, hn, he⟩ := List.mem_map.mp hmem
  obtain ⟨hkey, hnpos⟩ := Prod.mk.inj he
  replace hn : (key, i) ∈ (b₃.px.lb.grp false).curr.nodes := hn
  have hpos := hfaithful.npos hn
  rw [show key.toNat / 256 = 84 from hkey, show b₃.px.lb.npos i = 83 from hnpos] at hpos
  exact absurd hpos (by decide)

end SmartHAProxy
