/-
Fast weighted round robin: the share of each server in a round (lb_fwrr.c).

While no server is saturated and none is to be avoided, a call of
`fwrr_get_next_server` is one turn of a round (`FwrrRound.pick`).  `fwrr_shares`:
between two switches of the trees each server of the group is returned at
least once and at most as often as its weight says.

The code computes twice the weight of a group in an `int`, and limits a backend
to 4095 servers for this reason; the weight of the group is assumed to be below
2^30.
-/
import SmartHAProxy.Lb.FwrrRound
import SmartHAProxy.Lb.FwrrFaithful

namespace SmartHAProxy

universe u

variable {ι : Type u} [DecidableEq ι]
variable {f₁ : Fwrr ι} {i : ι} {srvs : List ι}

/-! ### One turn -/

section Turn

variable {srv : ι → Server} {st : ι → Standing} {w : ι → UInt32} {backup : Bool}
  {members : List ι} {W : UInt32} {f f' : Fwrr ι} {c : Criteria ι}

/-- The servers of the group are neither saturated nor to be avoided. -/
def Criteria.Clean (c : Criteria ι) (st : ι → Standing) (backup : Bool) : Prop :=
  ∀ i, (st i).map Prod.fst = some backup → c.free i = true ∧ c.avoid i = false

/-- The trees of the group have been switched. -/
def FwrrSwitched (backup : Bool) (f f' : Fwrr ι) : Prop :=
  (f'.grp backup).init ≠ (f.grp backup).init

theorem init_queueSrv (srv : ι → Server) (f : Fwrr ι) (i : ι) (backup : Bool) :
    ((fwrrQueueSrv srv f i).grp backup).init = (f.grp backup).init := by
  have hinsert (f : Fwrr ι) (b : Bool) (t : FwrrTree) (key : UInt32) :
      ((fwrrInsert f b t key i).grp backup).init = (f.grp backup).init := by
    show ((f.updGrp b _).grp backup).init = _
    rw [Fwrr.grp_updGrp]
    split_ifs with hb
    · rw [FwrrGroup.setTree_init, hb]
    · rfl
  unfold fwrrQueueSrv
  dsimp only
  split_ifs
  · rfl
  · exact hinsert ..
  · exact hinsert ..

theorem init_consume (srv : ι → Server) (f : Fwrr ι) (i : ι) :
    ((fwrrConsume srv f backup i).grp backup).init = (f.grp backup).init := by
  have hconsumed : FwrrRound.Consumed backup i f (fwrrConsume srv f backup i) :=
    FwrrRound.consumed ⟨rfl, rfl, rfl⟩ fun _ _ => ⟨rfl, rfl⟩
  exact hconsumed.init

omit [DecidableEq ι] in
theorem init_collectWeights (f : Fwrr ι) :
    ((fwrrCollectWeights f backup).grp backup).init = (f.grp backup).init := by
  unfold fwrrCollectWeights
  rw [Fwrr.grp_updGrp, if_pos rfl]
  split_ifs <;> rfl

theorem init_turn (hget : fwrrGetServerFromGroup srv f backup = (f₁, some i)) :
    ((fwrrQueueSrv srv (fwrrConsume srv f₁ backup i) i).grp backup).init = (f.grp backup).init := by
  obtain ⟨hpos, -⟩ := getServerFromGroup_spec srv f backup
  rw [hget] at hpos
  rw [init_queueSrv, init_consume, hpos.grp]

/-- What a pick does when no server is saturated or to be avoided. -/
inductive CleanPick (srv : ι → Server) (backup : Bool) (f : Fwrr ι) : Fwrr ι → Option ι → Prop
  | turn {f₁ : Fwrr ι} {i : ι}
      (hget : fwrrGetServerFromGroup srv (fwrrCollectWeights f backup) backup = (f₁, some i)) :
      CleanPick srv backup f (fwrrQueueSrv srv (fwrrConsume srv f₁ backup i) i) (some i)
  | switch {f₁ f₂ : Fwrr ι} {i : ι}
      (hget : fwrrGetServerFromGroup srv (fwrrCollectWeights f backup) backup = (f₁, none))
      (hget' : fwrrGetServerFromGroup srv (fwrrSwitchTrees f₁ backup) backup = (f₂, some i)) :
      CleanPick srv backup f (fwrrQueueSrv srv (fwrrConsume srv f₂ backup i) i) (some i)
  | empty {f₁ f₂ : Fwrr ι}
      (hget : fwrrGetServerFromGroup srv (fwrrCollectWeights f backup) backup = (f₁, none))
      (hget' : fwrrGetServerFromGroup srv (fwrrSwitchTrees f₁ backup) backup = (f₂, none)) :
      CleanPick srv backup f f₂ none

theorem cleanPick {r : Option ι} (hlinked : Linked st f []) (hc : c.Clean st backup)
    (hr : fwrrPick srv c backup f = some (f', r)) : CleanPick srv backup f f' r := by
  obtain ⟨⟨s, selected⟩, hsearch, he⟩ := Option.map_eq_some_iff.mp hr
  obtain ⟨rfl, rfl⟩ := Prod.mk.inj he
  -- a server that is drawn belongs to the group, so that it is accepted
  have haccept {f₁ : Fwrr ι} {switched : Bool} {i : ι}
      (hd : fwrrDraw srv (fwrrCollectWeights f backup) backup false = (f₁, switched, some i)) :
      s = ⟨fwrrConsume srv f₁ backup i, switched, [], none⟩ ∧ selected = some i := by
    obtain ⟨-, hmem⟩ := draw_spec srv (fwrrCollectWeights f backup) backup false
    obtain ⟨t, ht⟩ := hmem i (by rw [hd])
    rw [(sameTrees_collectWeights f backup).tree] at ht
    obtain ⟨hfree, havoid⟩ := hc i (hlinked.standing_of_mem ht)
    simp only [fwrrSearch, hd, hfree, havoid, Bool.false_eq_true, not_false_eq_true, true_or,
      and_true, if_true, Option.some.injEq, Prod.mk.injEq] at hsearch
    exact ⟨hsearch.1.symm, hsearch.2.symm⟩
  rcases hget : fwrrGetServerFromGroup srv (fwrrCollectWeights f backup) backup with ⟨f₁, - | i⟩
  · rcases hget' : fwrrGetServerFromGroup srv (fwrrSwitchTrees f₁ backup) backup with ⟨f₂, - | i⟩
    · have hd : fwrrDraw srv (fwrrCollectWeights f backup) backup false = (f₂, true, none) := by
        simp only [fwrrDraw, hget, hget', Bool.false_eq_true, if_false]
      simp only [fwrrSearch, hd, Option.some.injEq, Prod.mk.injEq] at hsearch
      obtain ⟨rfl, rfl⟩ := hsearch
      exact .empty hget hget'
    · have hd : fwrrDraw srv (fwrrCollectWeights f backup) backup false = (f₂, true, some i) := by
        simp only [fwrrDraw, hget, hget', Bool.false_eq_true, if_false]
      obtain ⟨rfl, rfl⟩ := haccept hd
      exact .switch hget hget'
  · have hd : fwrrDraw srv (fwrrCollectWeights f backup) backup false = (f₁, false, some i) := by
      simp only [fwrrDraw, hget]
    obtain ⟨rfl, rfl⟩ := haccept hd
    exact .turn hget

theorem exhausted (hlinked : Linked st f [])
    (hsrv : ∀ i, (st i).map Prod.fst = some backup → (srv i).Steady backup (w i))
    (htot : FwrrTotal st w backup members W)
    (hget : fwrrGetServerFromGroup srv f backup = (f₁, none)) :
    f₁ = f ∧ ((f.grp backup).tree (f.grp backup).init).items = [] ∧
      (f.grp backup).curr.items = [] := by
  obtain ⟨rfl, hcurr, hinit⟩ := getServerFromGroup_none hget
  refine ⟨rfl, ?_, List.head?_eq_none_iff.mp hcurr⟩
  rw [← List.head?_eq_none_iff]
  rcases hfirst : ((f₁.grp backup).tree (f₁.grp backup).init).items.head? with - | j
  · rfl
  · have hst := hlinked.standing_of_mem (EbTree.first_mem hfirst)
    have hpos := htot.pos j (htot.mem.mpr hst)
    rw [← (hsrv j hst).eweight, hinit j hfirst] at hpos
    exact absurd hpos (Nat.lt_irrefl 0)

omit [DecidableEq ι] in
theorem nextWeight_collectWeights (f : Fwrr ι) :
    ((fwrrCollectWeights f backup).grp backup).nextWeight = (f.grp backup).nextWeight := by
  unfold fwrrCollectWeights
  rw [Fwrr.grp_updGrp, if_pos rfl]
  split_ifs <;> rfl

/-- **The pick that switches the trees starts a round.** -/
theorem CleanPick.start {r : Option ι} (hpick : CleanPick srv backup f f' r)
    (hlinked : Linked st f []) (hnext : (f.grp backup).nextWeight = W)
    (hsrv : ∀ i, (st i).map Prod.fst = some backup → (srv i).Steady backup (w i))
    (htot : FwrrTotal st w backup members W) (hswitched : FwrrSwitched backup f f') :
    FwrrRound st w backup W f' r.toList [] := by
  have hcollect := hlinked.of_sameTrees (sameTrees_collectWeights f backup)
  have hround {f₁ : Fwrr ι}
      (hget : fwrrGetServerFromGroup srv (fwrrCollectWeights f backup) backup = (f₁, none)) :
      FwrrRound st w backup W (fwrrSwitchTrees f₁ backup) [] [] := by
    obtain ⟨rfl, hinit, hcurr⟩ := exhausted hcollect hsrv htot hget
    exact .start hcollect ((nextWeight_collectWeights f).trans hnext) hinit hcurr
  cases hpick with
  | turn hget => exact absurd ((init_turn hget).trans (init_collectWeights f)) hswitched
  | switch hget hget' => exact (hround hget).turn htot hsrv hget'
  | empty hget hget' =>
    obtain ⟨rfl, -⟩ := getServerFromGroup_none hget'
    exact hround hget

omit [DecidableEq ι] in
theorem Fwrr.updGrp_self {f : Fwrr ι} {u : FwrrGroup ι → FwrrGroup ι}
    (h : u (f.grp backup) = f.grp backup) : f.updGrp backup u = f := by
  cases backup with
  | false =>
    show { f with act := u (f.grp false) } = f
    rw [h]
    rfl
  | true =>
    show { f with bck := u (f.grp true) } = f
    rw [h]
    rfl

theorem FwrrRound.collectWeights {l : List ι} (h : FwrrRound st w backup W f l [])
    (htot : FwrrTotal st w backup members W) : fwrrCollectWeights f backup = f := by
  apply Fwrr.updGrp_self
  split_ifs with hzero
  · -- the group is empty, and its numbers are 0 already
    have hW : W = 0 := h.currWeight.symm.trans hzero
    have hlen := h.length_le htot
    have hcurrPos := h.currPos
    rw [hW, show UInt32.toNat 0 = 0 from rfl] at hlen hcurrPos
    have hpos : (f.grp backup).currPos = 0 := by
      rw [← UInt32.toNat_inj, hcurrPos]
      exact Nat.le_zero.mp (by rwa [Nat.zero_add])
    have hnext : (f.grp backup).nextWeight = 0 := h.nextWeight.trans hW
    generalize f.grp backup = g at *
    obtain ⟨curr, t0, t1, init, next, currPos, currWeight, nextWeight⟩ := g
    dsimp only at hzero hpos hnext ⊢
    rw [hzero, hpos, hnext]
  · rfl

theorem switched_of_none (hlinked : Linked st f [])
    (hget : fwrrGetServerFromGroup srv (fwrrCollectWeights f backup) backup = (f₁, none)) :
    FwrrSwitched backup f (fwrrSwitchTrees f₁ backup) := by
  have hne := (hlinked.slots backup).trees.2.2.2
  have hnext : ((fwrrCollectWeights f backup).grp backup).next = (f.grp backup).next := by
    unfold fwrrCollectWeights
    rw [Fwrr.grp_updGrp, if_pos rfl]
    split_ifs <;> rfl
  obtain ⟨rfl, -⟩ := getServerFromGroup_none hget
  unfold FwrrSwitched fwrrSwitchTrees
  rw [Fwrr.grp_updGrp, if_pos rfl]
  show ((fwrrCollectWeights f backup).grp backup).next ≠ (f.grp backup).init
  rw [hnext]
  exact hne.symm

theorem switched_empty (hlinked : Linked st f []) {f₂ : Fwrr ι}
    (hget : fwrrGetServerFromGroup srv (fwrrCollectWeights f backup) backup = (f₁, none))
    (hget' : fwrrGetServerFromGroup srv (fwrrSwitchTrees f₁ backup) backup = (f₂, none)) :
    FwrrSwitched backup f f₂ := by
  obtain ⟨rfl, -⟩ := getServerFromGroup_none hget'
  exact switched_of_none hlinked hget

/-- **A pick that does not switch the trees is a turn of the round.** -/
theorem FwrrRound.pick {l : List ι} {r : Option ι} (h : FwrrRound st w backup W f l [])
    (htot : FwrrTotal st w backup members W)
    (hsrv : ∀ i, (st i).map Prod.fst = some backup → (srv i).Steady backup (w i))
    (hpick : CleanPick srv backup f f' r) (hswitched : ¬FwrrSwitched backup f f') :
    FwrrRound st w backup W f' (l ++ r.toList) [] := by
  have hcollect := h.collectWeights htot
  cases hpick with
  | turn hget =>
    rw [hcollect] at hget
    exact h.turn htot hsrv hget
  | switch hget hget' =>
    have hinit := switched_of_none h.linked hget
    unfold FwrrSwitched at hswitched hinit
    rw [init_turn hget'] at hswitched
    exact absurd hinit hswitched
  | empty hget hget' => exact absurd (switched_empty h.linked hget hget') hswitched

/-- **When the trees are switched, no server of the group has been left out.** -/
theorem FwrrRound.all_returned {l : List ι} {r : Option ι} (h : FwrrRound st w backup W f l [])
    (htot : FwrrTotal st w backup members W)
    (hsrv : ∀ i, (st i).map Prod.fst = some backup → (srv i).Steady backup (w i))
    (hpick : CleanPick srv backup f f' r) (hswitched : FwrrSwitched backup f f')
    (hi : i ∈ members) : 1 ≤ l.count i := by
  have hdone {f₁ : Fwrr ι}
      (hget : fwrrGetServerFromGroup srv (fwrrCollectWeights f backup) backup = (f₁, none)) :
      1 ≤ l.count i := by
    rw [h.collectWeights htot] at hget
    obtain ⟨-, hinit, hcurr⟩ := exhausted h.linked hsrv htot hget
    exact h.count_pos hinit hcurr (htot.mem.mp hi)
  cases hpick with
  | turn hget => exact absurd ((init_turn hget).trans (init_collectWeights f)) hswitched
  | switch hget _ => exact hdone hget
  | empty hget _ => exact hdone hget

end Turn

/-! ### The run -/

section Run

/-- A call of `fwrr_get_next_server` for the group in use, none of whose servers
is saturated or to be avoided. -/
inductive FwrrCall (backup : Bool) (b : Backend ι (Fwrr ι)) : Backend ι (Fwrr ι) → Option ι → Prop
  | mk {b' : Backend ι (Fwrr ι)} {r : Option ι} {now : ℤ} {srvtoavoid : Option ι} {servers : CStr}
      (hgroup : b.px.groupInUse = some backup)
      (hclean : ∀ i ∈ b.members backup, (fwrrCriteria now b srvtoavoid servers).free i = true ∧
        (fwrrCriteria now b srvtoavoid servers).avoid i = false)
      (h : fwrrGetNextServer now b srvtoavoid servers = some (b', r)) : FwrrCall backup b b' r

/-- A run of such calls, none of which switches the trees, and of changes of
the load, with the servers that were returned. -/
inductive FwrrCalls (backup : Bool) (b : Backend ι (Fwrr ι)) :
    Backend ι (Fwrr ι) → List ι → Prop
  | nil : FwrrCalls backup b b []
  | load {b' : Backend ι (Fwrr ι)} {l : List ι} (h : FwrrCalls backup b b' l) (d : Load ι) :
      FwrrCalls backup b (d.apply b') l
  | call {b' b'' : Backend ι (Fwrr ι)} {l : List ι} {r : Option ι} (h : FwrrCalls backup b b' l)
      (hcall : FwrrCall backup b' b'' r) (hswitched : ¬FwrrSwitched backup b'.px.lb b''.px.lb) :
      FwrrCalls backup b b'' (l ++ r.toList)

variable {backup : Bool} {b b' : Backend ι (Fwrr ι)} {l : List ι} {r : Option ι}

theorem fwrrGetNextServer_pick (now : ℤ) (srvtoavoid : Option ι) {servers : CStr}
    (hzero : strchr servers '0'.toUInt8 = false) (hgroup : b.px.groupInUse = some backup) :
    fwrrGetNextServer now b srvtoavoid servers =
      (fwrrPick b.srv (fwrrCriteria now b srvtoavoid servers) backup b.px.lb).map fun r =>
        (b.setLb r.1, r.2) := by
  unfold fwrrGetNextServer
  unfold Proxy.groupInUse at hgroup
  dsimp only
  rw [if_neg (by rw [hzero]; exact Bool.false_ne_true)]
  split_ifs at hgroup ⊢
  · rw [Option.some.inj hgroup]
  · rw [Option.some.inj hgroup]

theorem FwrrCall.pick (h : FwrrCall backup b b' r) (hlinked : Linked b.committed b.px.lb []) :
    b' = b ∧ r = none ∨
      ∃ f', b' = b.setLb f' ∧ CleanPick b.srv backup b.px.lb f' r := by
  obtain ⟨hgroup, hclean, hcall⟩ := h
  rename_i now srvtoavoid servers
  have hc : (fwrrCriteria now b srvtoavoid servers).Clean b.committed backup := by
    intro i hi
    obtain ⟨hl, hu, hb⟩ := usable_of_standings hi
    exact hclean i (mem_members.mpr ⟨hl, hu, hb⟩)
  rcases hzero : strchr servers '0'.toUInt8 with - | -
  · rw [fwrrGetNextServer_pick now srvtoavoid hzero hgroup] at hcall
    obtain ⟨⟨f', r'⟩, hr, he⟩ := Option.map_eq_some_iff.mp hcall
    obtain ⟨rfl, rfl⟩ := Prod.mk.inj he
    exact .inr ⟨f', rfl, cleanPick hlinked hc hr⟩
  · -- the whitelist of the request excludes all servers
    unfold fwrrGetNextServer at hcall
    dsimp only at hcall
    rw [if_pos hzero] at hcall
    obtain ⟨rfl, rfl⟩ := Prod.mk.inj (Option.some.inj hcall)
    exact .inl ⟨rfl, rfl⟩

structure InRound (st : ι → Standing) (w : ι → UInt32) (backup : Bool) (W : UInt32)
    (b : Backend ι (Fwrr ι)) (l : List ι) : Prop where
  committed : b.committed = st
  steady : ∀ i, (st i).map Prod.fst = some backup → (b.srv i).Steady backup (w i)
  round : FwrrRound st w backup W b.px.lb l []

variable {st : ι → Standing} {w : ι → UInt32} {members : List ι} {W : UInt32}

/-- **A round goes on** until the trees are switched. -/
theorem FwrrCalls.inRound (htot : FwrrTotal st w backup members W) {l₀ : List ι}
    (h : FwrrCalls backup b b' l) (hround : InRound st w backup W b l₀) :
    InRound st w backup W b' (l₀ ++ l) := by
  induction h with
  | nil => rwa [List.append_nil]
  | load _ d ih =>
    refine ⟨ih.committed, fun i hi => ?_, ih.round⟩
    obtain ⟨hb, hw, he⟩ := ih.steady i hi
    exact ⟨hb, hw, he⟩
  | call _ hcall hswitched ih =>
    rw [← List.append_assoc]
    have hlinked := ih.round.linked
    rw [← ih.committed] at hlinked
    rcases hcall.pick hlinked with ⟨rfl, rfl⟩ | ⟨f', rfl, hpick⟩
    · rw [Option.toList_none, List.append_nil]
      exact ih
    · exact ⟨ih.committed, ih.steady, ih.round.pick htot ih.steady hpick hswitched⟩

theorem Balanced.fwrrTotal (h : Balanced Fwrr.Synced srvs b)
    (hsmall : ((b.members backup).map b.eweight).sum < 2 ^ 30) :
    FwrrTotal b.committed (fun i => (b.srv i).curEweight) backup (b.members backup)
      (b.px.lb.grp backup).nextWeight := by
  obtain rfl := h.srvs
  have hcommitted (i : ι) (hi : i ∈ b.px.srvs) : b.nextStandings i = (b.srv i).curStanding :=
    (h.settled i hi).symm
  have hweight : (b.px.lb.grp backup).nextWeight = weight b.nextStandings backup b.px.srvs := by
    obtain ⟨hact, hbck⟩ := Prod.mk.inj h.synced.1
    cases backup with
    | false => exact hact.trans (congrArg Tally.totWact h.tally)
    | true => exact hbck.trans (congrArg Tally.totWbck h.tally)
  have htotal : (b.px.lb.grp backup).nextWeight.toNat = ((b.members backup).map b.eweight).sum := by
    rw [hweight, toNat_weight backup _ hcommitted]
    exact Nat.mod_eq_of_lt (Nat.lt_trans hsmall (by decide))
  refine ⟨nodup_members b backup, fun {i} => ⟨fun hi => ?_, fun hi => ?_⟩, fun i hi => ?_,
    htotal.symm, ?_⟩
  · obtain ⟨hl, hu, hb⟩ := mem_members.mp hi
    rw [committed_of_mem hl, Server.curStanding_of_usable hu, hb]
    rfl
  · obtain ⟨hl, hu, hb⟩ := usable_of_standings hi
    exact mem_members.mpr ⟨hl, hu, hb⟩
  · obtain ⟨-, hu, -⟩ := mem_members.mp hi
    exact Nat.pos_of_ne_zero fun hzero =>
      Server.eweight_ne_zero_of_usableWith hu (UInt32.toNat_inj.mp hzero)
  · rw [htotal]
    exact hsmall

theorem Balanced.steady (h : Balanced Fwrr.Synced srvs b)
    (hi : (b.committed i).map Prod.fst = some backup) :
    (b.srv i).Steady backup (b.srv i).curEweight := by
  obtain ⟨hw, hb⟩ := h.standingsUsable i backup hi
  exact ⟨hb, hw, rfl⟩

theorem FwrrCall.start (h : FwrrCall backup b b' r) (hbal : Balanced Fwrr.Synced srvs b)
    (hsmall : ((b.members backup).map b.eweight).sum < 2 ^ 30)
    (hswitched : FwrrSwitched backup b.px.lb b'.px.lb) :
    InRound b.committed (fun i => (b.srv i).curEweight) backup (b.px.lb.grp backup).nextWeight b'
      r.toList := by
  have hlinked := hbal.synced.2
  rcases h.pick hlinked with ⟨rfl, -⟩ | ⟨f', rfl, hpick⟩
  · exact absurd rfl hswitched
  · refine ⟨rfl, fun i hi => hbal.steady hi, ?_⟩
    exact hpick.start hlinked rfl (fun i hi => hbal.steady hi) (hbal.fwrrTotal hsmall) hswitched

/-- **FWRR shares.**  While no server of the group is saturated or to be avoided,
between two switches of the trees each of them is returned at least once and at
most as often as its weight says. -/
theorem fwrr_shares {track : ι → Option ι} {b₀ : Backend ι Unit} {b₁ b₂ b₃ : Backend ι (Fwrr ι)}
    {r₃ : Option ι} (hrun : Relation.ReflTransGen (FwrrStep track) (fwrrInitServerGroups b₀) b)
    (hsmall : ((b.members backup).map b.eweight).sum < 2 ^ 30)
    (hfirst : FwrrCall backup b b₁ r) (hswitched : FwrrSwitched backup b.px.lb b₁.px.lb)
    (hcalls : FwrrCalls backup b₁ b₂ l)
    (hlast : FwrrCall backup b₂ b₃ r₃) (hswitched' : FwrrSwitched backup b₂.px.lb b₃.px.lb) :
    ∀ i ∈ b.members backup,
      1 ≤ (r.toList ++ l).count i ∧ (r.toList ++ l).count i ≤ b.eweight i := by
  have hinit : Lookup.init [] b₀ .rrtree = some (fwrrInitServerGroups b₀) := rfl
  have hbal : Balanced Fwrr.Synced b₀.px.srvs b := by
    clear hsmall hfirst hswitched
    induction hrun with
    | refl => exact balanced_of_init hinit
    | tail _ hstep ih => exact ih.fwrrStep hstep
  have htot := hbal.fwrrTotal hsmall
  have hround := hcalls.inRound htot (hfirst.start hbal hsmall hswitched)
  have hlinked₂ := hround.round.linked
  rw [← hround.committed] at hlinked₂
  intro i hi
  rcases hlast.pick hlinked₂ with ⟨rfl, -⟩ | ⟨f', rfl, hpick⟩
  · exact absurd rfl hswitched'
  · exact ⟨hround.round.all_returned htot hround.steady hpick hswitched' hi,
      hround.round.count_le htot hi⟩

/-! ### Rounds end -/

theorem exists_call (hbal : Balanced Fwrr.Synced srvs b) (hgroup : b.px.groupInUse = some backup)
    (hunlimited : ∀ i, (b.srv i).maxconn = 0) :
    ∃ f' r, FwrrCall backup b (b.setLb f') r ∧ CleanPick b.srv backup b.px.lb f' r := by
  have hlinked := hbal.synced.2
  have hzero : strchr [] '0'.toUInt8 = false := rfl
  have hfree (i : ι) : (fwrrCriteria 0 b none []).free i = true ∧
      (fwrrCriteria 0 b none []).avoid i = false := by
    refine ⟨?_, rfl⟩
    show unsaturated b.px 0 (b.srv i) = true
    rw [unsaturated, hunlimited, decide_eq_true rfl, Bool.true_or]
  obtain ⟨⟨f', r⟩, hr, -⟩ := hlinked.pick hbal.standingsUsable (fwrrCriteria 0 b none []) backup
  refine ⟨f', r, ⟨hgroup, fun i _ => hfree i, ?_⟩, cleanPick hlinked (fun i _ => hfree i) hr⟩
  rw [fwrrGetNextServer_pick 0 none hzero hgroup, hr]
  rfl

theorem FwrrCall.balanced (h : FwrrCall backup b b' r) (hbal : Balanced Fwrr.Synced srvs b) :
    Balanced Fwrr.Synced srvs b' := by
  obtain ⟨-, -, hcall⟩ := h
  have hstep : FwrrStep (fun _ => none) b b' := .next hcall
  exact hbal.fwrrStep hstep

theorem FwrrCalls.cons {b'' : Backend ι (Fwrr ι)} (hcall : FwrrCall backup b b' r)
    (hswitched : ¬FwrrSwitched backup b.px.lb b'.px.lb) (h : FwrrCalls backup b' b'' l) :
    FwrrCalls backup b b'' (r.toList ++ l) := by
  induction h with
  | nil =>
    rw [List.append_nil]
    exact FwrrCalls.nil.call hcall hswitched
  | load _ d ih => exact ih.load d
  | call _ hcall' hswitched' ih =>
    rw [← List.append_assoc]
    exact ih.call hcall' hswitched'

/-- **Rounds end**: servers without a limit are drawn until the trees are
switched. -/
theorem exists_switch (hbal : Balanced Fwrr.Synced srvs b) (htot : FwrrTotal st w backup members W)
    (hround : InRound st w backup W b l) (hgroup : b.px.groupInUse = some backup)
    (hunlimited : ∀ i, (b.srv i).maxconn = 0) :
    ∃ b₂ f' l' r', FwrrCalls backup b b₂ l' ∧ Balanced Fwrr.Synced srvs b₂ ∧
      InRound st w backup W b₂ (l ++ l') ∧ b₂.srv = b.srv ∧ b₂.px.groupInUse = b.px.groupInUse ∧
      FwrrCall backup b₂ (b₂.setLb f') r' ∧ FwrrSwitched backup b₂.px.lb f' := by
  -- the round is not longer than the range
  induction hn : W.toNat - l.length using Nat.strong_induction_on generalizing b l with
  | _ n ih =>
    obtain ⟨f', r', hcall, hpick⟩ := exists_call hbal hgroup hunlimited
    by_cases hswitched : FwrrSwitched backup b.px.lb f'
    · refine ⟨b, f', [], r', .nil, hbal, ?_, rfl, rfl, hcall, hswitched⟩
      rwa [List.append_nil]
    · have hround' : InRound st w backup W (b.setLb f') (l ++ r'.toList) :=
        ⟨hround.committed, hround.steady, hround.round.pick htot hround.steady hpick hswitched⟩
      have hlen := hround'.round.length_le htot
      -- a call that returns no server has switched the trees
      have hsome : ∃ i, r' = some i := by
        cases hpick with
        | turn _ => exact ⟨_, rfl⟩
        | switch _ _ => exact ⟨_, rfl⟩
        | empty hget hget' =>
          exact absurd (switched_empty hround.round.linked hget hget') hswitched
      obtain ⟨i, rfl⟩ := hsome
      have hlt : W.toNat - (l ++ [i]).length < n := by
        rw [Option.toList_some, List.length_append, List.length_singleton] at hlen
        rw [List.length_append, List.length_singleton]
        omega
      obtain ⟨b₂, f₂, l', r₂, hcalls, hbal₂, hround₂, hsrv, hgroup₂, hrest⟩ :=
        ih _ hlt (hcall.balanced hbal) hround' hgroup hunlimited rfl
      refine ⟨b₂, f₂, [i] ++ l', r₂, hcalls.cons hcall hswitched, hbal₂, ?_, hsrv, hgroup₂, hrest⟩
      rw [← List.append_assoc]
      exact hround₂

theorem FwrrCalls.steps (track : ι → Option ι) (h : FwrrCalls backup b b' l) :
    Relation.ReflTransGen (FwrrStep track) b b' := by
  induction h with
  | nil => exact .refl
  | load _ d ih => exact ih.tail (.load _ d)
  | call _ hcall _ ih =>
    obtain ⟨-, -, hnext⟩ := hcall
    exact ih.tail (.next hnext)

/-! ### Two servers -/

theorem inRound_threeAndTwo : InRound (fwrrInitServerGroups threeAndTwo).committed
    (fun i => ((fwrrInitServerGroups threeAndTwo).srv i).curEweight) false
    ((fwrrInitServerGroups threeAndTwo).px.lb.grp false).nextWeight
    (fwrrInitServerGroups threeAndTwo) [] := by
  have hbal := balanced_threeAndTwo
  have hempty : ((fwrrInitServerGroups threeAndTwo).px.lb.grp false).curr.items = [] ∧
      (((fwrrInitServerGroups threeAndTwo).px.lb.grp false).tree
        ((fwrrInitServerGroups threeAndTwo).px.lb.grp false).next).items = [] := by decide
  refine ⟨rfl, fun i hi => hbal.steady hi, hbal.synced.2, ?_, rfl, ?_, ?_, ?_, ?_, ?_⟩
  · decide
  · decide
  · exact fun i hi => absurd hi List.not_mem_nil
  · exact fun i _ => List.not_mem_nil
  · rw [hempty.1]
    exact fun i hi => absurd hi List.not_mem_nil
  · rw [hempty.2]
    exact fun i hi => absurd hi List.not_mem_nil

/-- Two rounds of the servers with the weights 3 and 2. -/
theorem fwrr_shares_threeAndTwo : ∃ (b b₁ b₂ b₃ : Backend Bool (Fwrr Bool)) (r r₃ : Option Bool)
    (l : List Bool), (FwrrCall false b b₁ r ∧ FwrrSwitched false b.px.lb b₁.px.lb) ∧
      FwrrCalls false b₁ b₂ l ∧ (FwrrCall false b₂ b₃ r₃ ∧ FwrrSwitched false b₂.px.lb b₃.px.lb) ∧
      (b.members false = [false, true] ∧ b.eweight false = 48 ∧ b.eweight true = 32) ∧
      ∀ i ∈ b.members false,
        1 ≤ (r.toList ++ l).count i ∧ (r.toList ++ l).count i ≤ b.eweight i := by
  obtain ⟨b₀, hb₀⟩ : ∃ b₀, b₀ = fwrrInitServerGroups threeAndTwo := ⟨_, rfl⟩
  have hbal₀ := balanced_threeAndTwo
  have hround₀ := inRound_threeAndTwo
  have hsmall₀ : ((b₀.members false).map b₀.eweight).sum < 2 ^ 30 := by
    rw [hb₀]
    decide
  have hgroup₀ : b₀.px.groupInUse = some false := by
    rw [hb₀]
    decide
  have hunlimited₀ : ∀ i, (b₀.srv i).maxconn = 0 := by
    rw [hb₀]
    decide
  rw [← hb₀] at hbal₀ hround₀
  -- the first round ends with a switch of the trees
  obtain ⟨b, f, l₀, r, hcalls₀, hbal, -, hsrv, hgroup, hcall, hswitched⟩ :=
    exists_switch hbal₀ (hbal₀.fwrrTotal hsmall₀) hround₀ hgroup₀ hunlimited₀
  have hmembers : b.members false = b₀.members false := by
    rw [Backend.members, Backend.members, hsrv, hbal.srvs, hbal₀.srvs]
  have heweight : b.eweight = b₀.eweight := by
    funext i
    rw [Backend.eweight, Backend.eweight, hsrv]
  have hsmall : ((b.members false).map b.eweight).sum < 2 ^ 30 := by
    rw [hmembers, heweight]
    exact hsmall₀
  -- and so does the second
  obtain ⟨b₂, f₂, l, r₃, hcalls, -, -, -, -, hcall₂, hswitched₂⟩ :=
    exists_switch (hcall.balanced hbal) (hbal.fwrrTotal hsmall)
      (hcall.start hbal hsmall hswitched) (hgroup.trans hgroup₀) fun i => by
        show (b.srv i).maxconn = 0
        rw [hsrv]
        exact hunlimited₀ i
  refine ⟨b, b.setLb f, b₂, b₂.setLb f₂, r, r₃, l, ⟨hcall, hswitched⟩, hcalls,
    ⟨hcall₂, hswitched₂⟩, ?_, ?_⟩
  · rw [hmembers, heweight, hb₀]
    decide
  · have hrun := hcalls₀.steps fun _ => none
    rw [hb₀] at hrun
    exact fwrr_shares hrun hsmall hcall hswitched hcalls hcall₂ hswitched₂

end Run

end SmartHAProxy
