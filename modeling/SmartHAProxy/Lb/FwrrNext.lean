/-
`fwrr_get_next_server` (lb_fwrr.c) and the conservation of servers.

The function draws servers from the trees of a group until one is accepted.
A server that is drawn is dequeued; if it is saturated or to be avoided, it is
chained on a list (`full`), and all servers of this list are queued again at
the end, into `init` if the trees were switched meanwhile, at their regular
place otherwise.

The outer loop is given an amount of fuel: each turn takes a server out of the
trees of the group, so it runs at most once more than there are nodes, and
`none` (out of fuel) is never the result (`Balanced.getNextServer`).
-/
import SmartHAProxy.Lb.Recount

namespace SmartHAProxy

variable {ι L : Type*}

/-! ### Drawing a server -/

/-- The server may take one more request: `!maxconn || (!queue.length && served
< srv_dynamic_maxconn)`. -/
def unsaturated (px : Proxy ι L) (now : ℤ) (s : Server) : Bool :=
  s.maxconn = 0 || (s.queueLength = 0 && s.served < srvDynamicMaxconn px now s)

section Drawing

variable [DecidableEq ι]

def fwrrGetServerFromGroup (srv : ι → Server) (f : Fwrr ι) (backup : Bool) : Fwrr ι × Option ι :=
  let g := f.grp backup
  let s₁ := g.curr.first
  if s₁.any fun i => (srv i).curEweight ≠ 0 && f.npos i ≤ g.currPos then (f, s₁)
  else match (g.tree g.init).first with
    | some j => if (srv j).curEweight ≠ 0 then (fwrrGetSrvInit f j, some j) else (f, s₁)
    | none => (f, s₁)

def fwrrSwitchTrees (f : Fwrr ι) (backup : Bool) : Fwrr ι :=
  f.updGrp backup fun g =>
    { g with
      init := g.next
      next := g.init
      currWeight := g.nextWeight
      currPos := g.nextWeight }

def fwrrUpdatePosition (srv : ι → Server) (f : Fwrr ι) (backup : Bool) (i : ι) : Fwrr ι :=
  let g := f.grp backup
  let eweight := (srv i).curEweight
  if eweight = 0 then f
  else
    let lpos := if f.npos i = 0 then g.currPos else f.npos i
    let npos := lpos + g.nextWeight / eweight
    let rweight := f.rweight i + g.nextWeight % eweight
    let carry := rweight ≥ eweight
    { f with
      lpos := Function.update f.lpos i lpos
      npos := Function.update f.npos i (if carry then npos + 1 else npos)
      rweight := Function.update f.rweight i (if carry then rweight - eweight else rweight) }

/-- "If we see an empty group, let's first try to collect weights which might
have recently changed." -/
def fwrrCollectWeights (f : Fwrr ι) (backup : Bool) : Fwrr ι :=
  f.updGrp backup fun g =>
    if g.currWeight = 0 then { g with currPos := g.nextWeight, currWeight := g.nextWeight } else g

/-- The inner loop: the trees are switched when they are exhausted, but only
once. -/
def fwrrDraw (srv : ι → Server) (f : Fwrr ι) (backup switched : Bool) :
    Fwrr ι × Bool × Option ι :=
  match fwrrGetServerFromGroup srv f backup with
  | (f, some i) => (f, switched, some i)
  | (f, none) =>
    if switched then (f, true, none)
    else
      let (f, i) := fwrrGetServerFromGroup srv (fwrrSwitchTrees f backup) backup
      (f, true, i)

/-- The server that was drawn is consumed. -/
def fwrrConsume (srv : ι → Server) (f : Fwrr ι) (backup : Bool) (i : ι) : Fwrr ι :=
  let f := fwrrDequeueSrv (fwrrUpdatePosition srv f backup i) i
  f.updGrp backup fun g => { g with currPos := g.currPos + 1 }

end Drawing

/-! ### `fwrr_get_next_server` -/

/-- Where the search stands: the trees, whether they were switched, the servers
in hand, and the server that was remembered as avoided. -/
structure FwrrSearch (ι : Type*) where
  fwrr : Fwrr ι
  switched : Bool
  full : List ι
  avoided : Option ι

/-- The criteria of a call: a server may take a request if it is not saturated,
and it is avoided if it is `srvtoavoid` (which may be NULL) and does not occur
in the whitelist string of the request. -/
def fwrrCriteria [DecidableEq ι] (now : ℤ) (b : Backend ι L) (srvtoavoid : Option ι)
    (servers : CStr) : Criteria ι where
  free i := unsaturated b.px now (b.srv i)
  avoid i := some i = srvtoavoid && !strchr servers (b.srv i).srvNum

section Search

variable [DecidableEq ι]

/-- The outer loop.  The result comes with the server that was selected; the
avoided server is selected when no other is left. -/
def fwrrSearch (srv : ι → Server) (c : Criteria ι) (backup : Bool) :
    ℕ → FwrrSearch ι → Option (FwrrSearch ι × Option ι)
  | 0, _ => none
  | fuel + 1, s =>
    match fwrrDraw srv (fwrrCollectWeights s.fwrr backup) backup s.switched with
    | (f, switched, none) =>
      some ({ s with fwrr := f, switched := switched }, s.avoided)
    | (f, switched, some i) =>
      let s := { s with fwrr := fwrrConsume srv f backup i, switched := switched }
      if c.free i ∧ (¬c.avoid i ∨ s.avoided.isSome) then some (s, some i)
      else
        fwrrSearch srv c backup fuel
          { s with
            full := i :: s.full
            avoided := if c.free i then some i else s.avoided }

def fwrrRequeue (srv : ι → Server) (backup switched : Bool) (f : Fwrr ι) (i : ι) : Fwrr ι :=
  if switched then fwrrQueueByWeight srv f backup (f.grp backup).init i else fwrrQueueSrv srv f i

/-- The end of `fwrr_get_next_server`: the selected server and all extracted
servers are queued. -/
def fwrrFinish (srv : ι → Server) (backup : Bool) (s : FwrrSearch ι) (selected : Option ι) :
    Fwrr ι :=
  let f := match selected with
    | some i => fwrrQueueSrv srv s.fwrr i
    | none => s.fwrr
  s.full.foldl (fun f i => if some i ≠ selected then fwrrRequeue srv backup s.switched f i else f) f

/-- How many nodes the trees of a group have. -/
def FwrrGroup.size (g : FwrrGroup ι) : ℕ :=
  g.curr.items.length + g.t0.items.length + g.t1.items.length

def fwrrPick (srv : ι → Server) (c : Criteria ι) (backup : Bool) (f : Fwrr ι) :
    Option (Fwrr ι × Option ι) :=
  (fwrrSearch srv c backup ((f.grp backup).size + 1) ⟨f, false, [], none⟩).map fun r =>
    (fwrrFinish srv backup r.1 r.2, r.2)

/-- `fwrr_get_next_server` at date `now`, once the whitelist string of the
request has been looked up. -/
def fwrrGetNextServer (now : ℤ) (b : Backend ι (Fwrr ι)) (srvtoavoid : Option ι)
    (servers : CStr) : Option (Backend ι (Fwrr ι) × Option ι) :=
  let pick (backup : Bool) :=
    (fwrrPick b.srv (fwrrCriteria now b srvtoavoid servers) backup b.px.lb).map fun r =>
      (b.setLb r.1, r.2)
  if strchr servers '0'.toUInt8 then some (b, none)
  else if b.px.srvAct ≠ 0 then pick false
  else if b.px.fbck.isSome then some (b, b.px.fbck)
  else if b.px.srvBck ≠ 0 then pick true
  else some (b, none)

end Search

/-! ### What a draw does to the trees -/

section Draws

variable [DecidableEq ι] (srv : ι → Server) (f : Fwrr ι) (backup : Bool)

theorem getServerFromGroup_spec :
    OnlyPositions f (fwrrGetServerFromGroup srv f backup).1 ∧
      ∀ i, (fwrrGetServerFromGroup srv f backup).2 = some i →
        ∃ t, i ∈ ((f.grp backup).tree t).items := by
  have hcurr : ∀ i, (f.grp backup).curr.first = some i →
      ∃ t, i ∈ ((f.grp backup).tree t).items :=
    fun i hi => ⟨.curr, EbTree.first_mem hi⟩
  simp only [fwrrGetServerFromGroup]
  split
  · exact ⟨⟨rfl, rfl, rfl⟩, hcurr⟩
  · split
    · rename_i j hj
      split_ifs
      · refine ⟨⟨rfl, rfl, rfl⟩, fun i hi => ?_⟩
        obtain rfl := Option.some.inj hi
        exact ⟨_, EbTree.first_mem hj⟩
      · exact ⟨⟨rfl, rfl, rfl⟩, hcurr⟩
    · exact ⟨⟨rfl, rfl, rfl⟩, hcurr⟩

omit [DecidableEq ι] in
theorem sameTrees_switchTrees : SameTrees f (fwrrSwitchTrees f backup) := by
  apply sameTrees_updGrp
  · intro g t
    cases t <;> rfl
  · rintro g (⟨hi, hn⟩ | ⟨hi, hn⟩)
    · exact Or.inr ⟨hn, hi⟩
    · exact Or.inl ⟨hn, hi⟩

omit [DecidableEq ι] in
theorem sameTrees_collectWeights : SameTrees f (fwrrCollectWeights f backup) := by
  apply sameTrees_updGrp
  · intro g t
    split_ifs
    · cases t <;> rfl
    · rfl
  · intro g hs
    split_ifs
    · exact hs
    · exact hs

theorem draw_spec (switched : Bool) :
    SameTrees f (fwrrDraw srv f backup switched).1 ∧
      ∀ i, (fwrrDraw srv f backup switched).2.2 = some i →
        ∃ t, i ∈ ((f.grp backup).tree t).items := by
  obtain ⟨hpos, hmem⟩ := getServerFromGroup_spec srv f backup
  rcases hget : fwrrGetServerFromGroup srv f backup with ⟨f₁, - | j⟩
  · rw [hget] at hpos hmem
    rcases switched with - | -
    · -- the trees are switched before the second attempt
      obtain ⟨hpos', hmem'⟩ := getServerFromGroup_spec srv (fwrrSwitchTrees f₁ backup) backup
      have hsame := hpos.sameTrees.trans (sameTrees_switchTrees f₁ backup)
      simp only [fwrrDraw, hget, Bool.false_eq_true, if_false]
      refine ⟨hsame.trans hpos'.sameTrees, fun i hi => ?_⟩
      obtain ⟨t, ht⟩ := hmem' i hi
      rw [hsame.tree] at ht
      exact ⟨t, ht⟩
    · simp only [fwrrDraw, hget, if_true]
      exact ⟨hpos.sameTrees, fun i hi => by simp at hi⟩
  · rw [hget] at hpos hmem
    simp only [fwrrDraw, hget]
    exact ⟨hpos.sameTrees, hmem⟩

theorem onlyPositions_updatePosition (i : ι) :
    OnlyPositions f (fwrrUpdatePosition srv f backup i) := by
  simp only [fwrrUpdatePosition]
  split <;> exact ⟨rfl, rfl, rfl⟩

omit [DecidableEq ι] in
theorem sameTrees_currPos (w : FwrrGroup ι → UInt32) :
    SameTrees f (f.updGrp backup fun g => { g with currPos := w g }) := by
  apply sameTrees_updGrp
  · intro g t
    cases t <;> rfl
  · exact fun _ hs => hs

theorem Linked.consume {st : ι → Standing} {f : Fwrr ι} {out : List ι} (h : Linked st f out)
    (srv : ι → Server) (backup : Bool) (i : ι) :
    Linked st (fwrrConsume srv f backup i) (i :: out) :=
  ((h.of_onlyPositions (onlyPositions_updatePosition srv f backup i)).dequeueSrv i).of_sameTrees
    (sameTrees_currPos _ backup fun g => g.currPos + 1)

omit [DecidableEq ι] in
theorem SameTrees.size {f f' : Fwrr ι} (h : SameTrees f f') (backup : Bool) :
    (f'.grp backup).size = (f.grp backup).size := by
  have hcurr : (f'.grp backup).curr = (f.grp backup).curr := h.tree backup .curr
  have ht0 : (f'.grp backup).t0 = (f.grp backup).t0 := h.tree backup .t0
  have ht1 : (f'.grp backup).t1 = (f.grp backup).t1 := h.tree backup .t1
  rw [FwrrGroup.size, FwrrGroup.size, hcurr, ht0, ht1]

theorem size_consume {f : Fwrr ι} {i : ι} {t : FwrrTree}
    (hi : i ∈ ((f.grp backup).tree t).items) :
    ((fwrrConsume srv f backup i).grp backup).size < (f.grp backup).size := by
  have hpos := (onlyPositions_updatePosition srv f backup i).sameTrees
  have hsize : ((fwrrConsume srv f backup i).grp backup).size
      = ((fwrrDequeueSrv (fwrrUpdatePosition srv f backup i) i).grp backup).size :=
    (sameTrees_currPos _ backup fun g => g.currPos + 1).size backup
  rw [hsize, ← hpos.size backup]
  rw [← hpos.tree backup t] at hi
  generalize fwrrUpdatePosition srv f backup i = f' at hi
  have hdel (t : FwrrTree) := tree_dequeueSrv f' i backup t
  have hcurr : ((fwrrDequeueSrv f' i).grp backup).curr = (f'.grp backup).curr.delete i :=
    hdel .curr
  have ht0 : ((fwrrDequeueSrv f' i).grp backup).t0 = (f'.grp backup).t0.delete i := hdel .t0
  have ht1 : ((fwrrDequeueSrv f' i).grp backup).t1 = (f'.grp backup).t1.delete i := hdel .t1
  rw [FwrrGroup.size, FwrrGroup.size, hcurr, ht0, ht1]
  have hc := (f'.grp backup).curr.length_delete_le i
  have h0 := (f'.grp backup).t0.length_delete_le i
  have h1 := (f'.grp backup).t1.length_delete_le i
  cases t with
  | curr =>
    have := EbTree.length_delete_lt hi
    simp only [FwrrGroup.tree] at this
    omega
  | t0 =>
    have := EbTree.length_delete_lt hi
    simp only [FwrrGroup.tree] at this
    omega
  | t1 =>
    have := EbTree.length_delete_lt hi
    simp only [FwrrGroup.tree] at this
    omega

end Draws

/-! ### What a pick does to the trees -/

section Picks

variable [DecidableEq ι] {srv : ι → Server} {c : Criteria ι} {backup : Bool}
  {st : ι → Standing}

/-- The servers in hand belong to the group and are linked nowhere. -/
structure InHand (st : ι → Standing) (backup : Bool) (s : FwrrSearch ι) (selected : Option ι) :
    Prop where
  linked : Linked st s.fwrr (selected.toList ++ s.full)
  nodup : s.full.Nodup
  group : ∀ i ∈ selected.toList ++ s.full, (st i).map Prod.fst = some backup

/-- The search ends, and every server that was drawn is in hand. -/
theorem fwrrSearch_spec (srv : ι → Server) (c : Criteria ι) (fuel : ℕ) {s : FwrrSearch ι}
    (h : InHand st backup s none) (havoided : ∀ i, s.avoided = some i → i ∈ s.full)
    (hfuel : (s.fwrr.grp backup).size < fuel) :
    ∃ r, fwrrSearch srv c backup fuel s = some r ∧ InHand st backup r.1 r.2 := by
  induction fuel generalizing s with
  | zero => exact absurd hfuel (Nat.not_lt_zero _)
  | succ fuel ih =>
    have hcollect := sameTrees_collectWeights s.fwrr backup
    obtain ⟨hdraw, hmem⟩ :=
      draw_spec srv (fwrrCollectWeights s.fwrr backup) backup s.switched
    have hsame := hcollect.trans hdraw
    have hlinked : Linked st s.fwrr s.full := h.linked
    rcases he : fwrrDraw srv (fwrrCollectWeights s.fwrr backup) backup s.switched with
      ⟨f, switched, - | i⟩
    · -- no server is left: the avoided one is taken, if any
      rw [he] at hsame
      refine ⟨_, by simp only [fwrrSearch, he]; rfl, ?_, h.nodup, ?_⟩
      · refine (hlinked.of_sameTrees hsame).congr fun j => ?_
        rcases ha : s.avoided with - | k
        · simp
        · have := havoided k ha
          simp only [Option.toList_some, List.singleton_append, List.mem_cons]
          constructor
          · rintro (rfl | hj)
            · exact this
            · exact hj
          · exact Or.inr
      · intro j hj
        apply h.group
        rcases ha : s.avoided with - | k
        · simpa [ha] using hj
        · have := havoided k ha
          rw [ha] at hj
          rcases List.mem_append.mp hj with hj | hj
          · simp only [Option.toList_some, List.mem_singleton] at hj
            rw [hj]
            exact this
          · exact hj
    · have hsame' : SameTrees s.fwrr f := by simpa only [he] using hsame
      obtain ⟨t, ht⟩ := hmem i (by rw [he])
      rw [hcollect.tree] at ht
      have hout := (hlinked.lbTree_of_mem ht).1
      have hgroup := hlinked.standing_of_mem ht
      have hcons := (hlinked.of_sameTrees hsame').consume srv backup i
      rw [← hsame'.tree] at ht
      have hsize := size_consume srv backup ht
      rw [hsame'.size] at hsize
      have hall : ∀ j ∈ i :: s.full, (st j).map Prod.fst = some backup := by
        intro j hj
        rcases List.mem_cons.mp hj with rfl | hj
        · exact hgroup
        · exact h.group j hj
      simp only [fwrrSearch, he]
      split
      · exact ⟨_, rfl, hcons, h.nodup, hall⟩
      · refine ih ⟨hcons, List.nodup_cons.mpr ⟨hout, h.nodup⟩, hall⟩ ?_ (by
          show ((fwrrConsume srv f backup i).grp backup).size < fuel
          omega)
        intro j hj
        simp only at hj
        split_ifs at hj
        · obtain rfl := Option.some.inj hj
          exact List.mem_cons_self
        · exact List.mem_cons_of_mem i (havoided j hj)

/-- The servers with a standing are usable ones of the right group. -/
def StandingsUsable (srv : ι → Server) (st : ι → Standing) : Prop :=
  ∀ i backup, (st i).map Prod.fst = some backup →
    (srv i).willbeUsable = true ∧ (srv i).backup = backup

theorem Linked.requeue {f : Fwrr ι} {i : ι} {out : List ι} (h : Linked st f (i :: out))
    (hi : i ∉ out) (hst : (st i).map Prod.fst = some backup) (husable : StandingsUsable srv st)
    (switched : Bool) : Linked st (fwrrRequeue srv backup switched f i) out := by
  obtain ⟨hw, hb⟩ := husable i backup hst
  unfold fwrrRequeue
  split_ifs
  · exact h.insert hi hst _ _
  · exact h.queueSrv hi hw (hst.trans (congrArg some hb.symm))

/-- What holds of the servers in hand is kept when they are queued again one by one. -/
theorem foldl_requeue {P : Fwrr ι → List ι → Prop} {selected : Option ι} {switched : Bool}
    {full : List ι} {f : Fwrr ι} (h : P f (full.filter fun i => some i ≠ selected))
    (hnodup : full.Nodup) (hstep : ∀ f i out, i ∈ full → i ∉ out → P f (i :: out) →
      P (fwrrRequeue srv backup switched f i) out) :
    P (full.foldl
      (fun f i => if some i ≠ selected then fwrrRequeue srv backup switched f i else f) f) [] := by
  induction full generalizing f with
  | nil => exact h
  | cons i full ih =>
    obtain ⟨hi, hnodup⟩ := List.nodup_cons.mp hnodup
    rw [List.foldl_cons]
    refine ih ?_ hnodup fun f j out hj => hstep f j out (List.mem_cons_of_mem i hj)
    by_cases hsel : some i ≠ selected
    · rw [List.filter_cons_of_pos (by simpa using hsel)] at h
      rw [if_pos hsel]
      exact hstep f i _ List.mem_cons_self (fun hmem => hi (List.mem_of_mem_filter hmem)) h
    · rw [List.filter_cons_of_neg (by simpa using hsel)] at h
      rw [if_neg hsel]
      exact h

theorem InHand.finish {s : FwrrSearch ι} {selected : Option ι} (h : InHand st backup s selected)
    (husable : StandingsUsable srv st) : Linked st (fwrrFinish srv backup s selected) [] := by
  refine foldl_requeue (P := Linked st) ?_ h.nodup fun f i out hi hout hf =>
    hf.requeue hout (h.group i (List.mem_append_right _ hi)) husable s.switched
  rcases selected with - | i
  · refine h.linked.congr fun j => ?_
    simp
  · -- the selected server may also be on the list, if it was avoided in vain
    have hst := h.group i (by simp)
    obtain ⟨hw, hb⟩ := husable i backup hst
    refine Linked.queueSrv ?_ (by simp) hw (hst.trans (congrArg some hb.symm))
    refine h.linked.congr fun j => ?_
    by_cases hj : j = i <;> simp [hj]

/-- **A pick keeps every server linked**, and it ends. -/
theorem Linked.pick {f : Fwrr ι} (h : Linked st f []) (husable : StandingsUsable srv st)
    (c : Criteria ι) (backup : Bool) :
    ∃ r, fwrrPick srv c backup f = some r ∧ Linked st r.1 [] := by
  have hstart : InHand st backup ⟨f, false, [], none⟩ none :=
    ⟨h, List.nodup_nil, by simp⟩
  obtain ⟨r, hr, hin⟩ := fwrrSearch_spec srv c _ hstart (by simp) (Nat.lt_succ_self _)
  exact ⟨_, by rw [fwrrPick, hr]; rfl, hin.finish husable⟩

end Picks

/-! ### The weights of the groups are not touched -/

section Weights

variable [DecidableEq ι] (srv : ι → Server) (c : Criteria ι) (backup : Bool)

theorem nextWeights_getServerFromGroup (f : Fwrr ι) :
    (fwrrGetServerFromGroup srv f backup).1.nextWeights = f.nextWeights :=
  (getServerFromGroup_spec srv f backup).1.nextWeights

omit [DecidableEq ι] in
theorem nextWeights_switchTrees (f : Fwrr ι) :
    (fwrrSwitchTrees f backup).nextWeights = f.nextWeights := by
  apply f.nextWeights_updGrp
  exact fun _ => rfl

omit [DecidableEq ι] in
theorem nextWeights_collectWeights (f : Fwrr ι) :
    (fwrrCollectWeights f backup).nextWeights = f.nextWeights := by
  apply f.nextWeights_updGrp
  intro g
  split_ifs <;> rfl

theorem nextWeights_draw (f : Fwrr ι) (switched : Bool) :
    (fwrrDraw srv f backup switched).1.nextWeights = f.nextWeights := by
  have hget := nextWeights_getServerFromGroup srv backup f
  unfold fwrrDraw
  split
  · rename_i f₁ i he
    rw [he] at hget
    exact hget
  · rename_i f₁ he
    rw [he] at hget
    split_ifs
    · exact hget
    · rw [nextWeights_getServerFromGroup, nextWeights_switchTrees]
      exact hget

theorem nextWeights_consume (f : Fwrr ι) (i : ι) :
    (fwrrConsume srv f backup i).nextWeights = f.nextWeights := by
  have hpos := (onlyPositions_updatePosition srv f backup i).nextWeights
  refine Eq.trans ?_ hpos
  apply Fwrr.nextWeights_updGrp
  exact fun _ => rfl

theorem nextWeights_search (fuel : ℕ) {s : FwrrSearch ι} {r : FwrrSearch ι × Option ι}
    (hr : fwrrSearch srv c backup fuel s = some r) :
    r.1.fwrr.nextWeights = s.fwrr.nextWeights := by
  induction fuel generalizing s with
  | zero => exact absurd hr (by simp [fwrrSearch])
  | succ fuel ih =>
    have hdraw := (nextWeights_draw srv backup (fwrrCollectWeights s.fwrr backup) s.switched).trans
      (nextWeights_collectWeights backup s.fwrr)
    rcases he : fwrrDraw srv (fwrrCollectWeights s.fwrr backup) backup s.switched with
      ⟨f, switched, - | i⟩ <;> rw [he] at hdraw <;> simp only [fwrrSearch, he] at hr
    · obtain rfl := Option.some.inj hr
      exact hdraw
    · have hcons := (nextWeights_consume srv backup f i).trans hdraw
      split at hr
      · obtain rfl := Option.some.inj hr
        exact hcons
      · exact (ih hr).trans hcons

theorem nextWeights_requeue (switched : Bool) (f : Fwrr ι) (i : ι) :
    (fwrrRequeue srv backup switched f i).nextWeights = f.nextWeights := by
  unfold fwrrRequeue
  split_ifs
  · exact nextWeights_insert _ _ _ _ _
  · exact nextWeights_queueSrv _ _ _

theorem nextWeights_finish (s : FwrrSearch ι) (selected : Option ι) :
    (fwrrFinish srv backup s selected).nextWeights = s.fwrr.nextWeights := by
  have hfold (l : List ι) (f : Fwrr ι) :
      (l.foldl (fun f i => if some i ≠ selected then fwrrRequeue srv backup s.switched f i else f)
        f).nextWeights = f.nextWeights := by
    induction l generalizing f with
    | nil => rfl
    | cons i l ih =>
      rw [List.foldl_cons, ih]
      split_ifs
      · exact nextWeights_requeue _ _ _ _ _
      · rfl
  refine (hfold s.full _).trans ?_
  cases selected with
  | none => rfl
  | some i => exact nextWeights_queueSrv _ _ _

theorem nextWeights_pick {f : Fwrr ι} {r : Fwrr ι × Option ι}
    (hr : fwrrPick srv c backup f = some r) : r.1.nextWeights = f.nextWeights := by
  obtain ⟨r', hr', rfl⟩ := Option.map_eq_some_iff.mp hr
  exact (nextWeights_finish srv backup r'.1 r'.2).trans (nextWeights_search srv c backup _ hr')

end Weights

/-! ### Runs -/

/-- What other parts of the program change between two calls: the load of the
servers and of the proxy, and the limits of both. -/
structure Load (ι : Type*) where
  served : ι → UInt32
  queueLength : ι → UInt32
  maxconn : ι → UInt32
  minconn : ι → UInt32
  maxqueue : ι → UInt32
  beconn : UInt32
  fullconn : UInt32

def Load.apply (l : Load ι) (b : Backend ι L) : Backend ι L where
  srv i :=
    { b.srv i with
      served := l.served i
      queueLength := l.queueLength i
      maxconn := l.maxconn i
      minconn := l.minconn i
      maxqueue := l.maxqueue i }
  px := { b.px with beconn := l.beconn, fullconn := l.fullconn }

universe u

section Runs

variable {ι : Type u} [DecidableEq ι]

/-- A status or weight change, a new load, or a call of `fwrr_get_next_server`. -/
inductive FwrrStep (track : ι → Option ι) : Backend ι (Fwrr ι) → Backend ι (Fwrr ι) → Prop
  | status {b b' : Backend ι (Fwrr ι)} (h : LbStep .rrtree track b b') : FwrrStep track b b'
  | load (b : Backend ι (Fwrr ι)) (l : Load ι) : FwrrStep track b (l.apply b)
  | next {b b' : Backend ι (Fwrr ι)} {now : ℤ} {srvtoavoid : Option ι} {servers : CStr}
      {srv : Option ι} (h : fwrrGetNextServer now b srvtoavoid servers = some (b', srv)) :
      FwrrStep track b b'

/-- Every usable server is linked in exactly one of the trees of its group, where
`lb_tree` says, and no other server is linked anywhere. -/
structure Conserved (b : Backend ι (Fwrr ι)) : Prop where
  usable : ∀ i ∈ b.px.srvs, (b.srv i).currentlyUsable = true →
    ∃ t, b.px.lb.lbTree i = some ((b.srv i).backup, t) ∧
      ∀ backup t', ((b.px.lb.grp backup).tree t').items.count i
        = if backup = (b.srv i).backup ∧ t' = t then 1 else 0
  unusable : ∀ i, ¬(i ∈ b.px.srvs ∧ (b.srv i).currentlyUsable = true) →
    b.px.lb.lbTree i = none ∧ ∀ backup t, i ∉ ((b.px.lb.grp backup).tree t).items
  settled : ∀ i ∈ b.px.srvs, (b.srv i).currentlyUsable = (b.srv i).willbeUsable
  trees : ∀ backup t, t = .curr ∨ t = (b.px.lb.grp backup).init ∨ t = (b.px.lb.grp backup).next
  distinct : ∀ backup, (b.px.lb.grp backup).init ≠ .curr ∧ (b.px.lb.grp backup).next ≠ .curr ∧
    (b.px.lb.grp backup).init ≠ (b.px.lb.grp backup).next

variable {l : List ι} {b b' : Backend ι (Fwrr ι)}

theorem Balanced.standingsUsable (h : Balanced Fwrr.Synced l b) :
    StandingsUsable b.srv b.committed := by
  intro i backup hst
  have hi : i ∈ b.px.srvs := by
    by_contra hi
    simp [Backend.committed, hi] at hst
  rw [committed_of_mem hi, h.settled i (h.srvs ▸ hi), Server.nextStanding] at hst
  rcases hw : (b.srv i).willbeUsable with - | -
  · simp [hw] at hst
  · exact ⟨rfl, by simpa [hw] using hst⟩

theorem Balanced.getNextServer (h : Balanced Fwrr.Synced l b) (now : ℤ) (srvtoavoid : Option ι)
    (servers : CStr) :
    ∃ r, fwrrGetNextServer now b srvtoavoid servers = some r ∧ Balanced Fwrr.Synced l r.1 := by
  have hpick (backup : Bool) :
      ∃ r, (fwrrPick b.srv (fwrrCriteria now b srvtoavoid servers) backup b.px.lb).map
        (fun r => (b.setLb r.1, r.2)) = some r ∧ Balanced Fwrr.Synced l r.1 := by
    obtain ⟨r, hr, hlinked⟩ := h.synced.2.pick h.standingsUsable
      (fwrrCriteria now b srvtoavoid servers) backup
    refine ⟨(b.setLb r.1, r.2), by rw [hr]; rfl, h.setLb ⟨?_, hlinked⟩⟩
    exact (nextWeights_pick _ _ _ hr).trans h.synced.1
  simp only [fwrrGetNextServer]
  split_ifs
  · exact ⟨_, rfl, h⟩
  · exact hpick false
  · exact ⟨_, rfl, h⟩
  · exact hpick true
  · exact ⟨_, rfl, h⟩

theorem Balanced.fwrrStep {track : ι → Option ι} (h : Balanced Fwrr.Synced l b)
    (hstep : FwrrStep track b b') : Balanced Fwrr.Synced l b' := by
  cases hstep with
  | status hs => exact Balanced.step (k := .rrtree) h hs
  | load d => exact ⟨h.srvs, h.tally, h.settled, h.synced⟩
  | next hn =>
    obtain ⟨r, hr, hbal⟩ := h.getNextServer _ _ _
    obtain rfl := Option.some.inj (hr.symm.trans hn)
    exact hbal

omit [DecidableEq ι] in
theorem FwrrGroup.Slots.trees {g : FwrrGroup ι} (h : g.Slots) :
    (∀ t, t = .curr ∨ t = g.init ∨ t = g.next) ∧
      g.init ≠ .curr ∧ g.next ≠ .curr ∧ g.init ≠ g.next := by
  refine ⟨fun t => ?_, ?_⟩
  · rcases h with ⟨hi, hn⟩ | ⟨hi, hn⟩ <;> cases t <;> simp [hi, hn]
  · rcases h with ⟨hi, hn⟩ | ⟨hi, hn⟩ <;> simp [hi, hn]

theorem Balanced.conserved (h : Balanced Fwrr.Synced l b) : Conserved b := by
  obtain ⟨-, hlinked⟩ := h.synced
  have hlb (i : ι) := hlinked.lbTree i List.not_mem_nil
  have hcount (i : ι) (backup : Bool) (t : FwrrTree) := hlinked.count i backup t
  simp only [List.not_mem_nil, not_false_eq_true, true_and] at hcount
  refine ⟨?_, ?_, ?_, fun backup => (hlinked.slots backup).trees.1,
    fun backup => (hlinked.slots backup).trees.2⟩
  · intro i hi hu
    have hst := hlb i
    rw [committed_of_mem hi, Server.curStanding, if_pos hu] at hst
    obtain ⟨⟨backup, t⟩, ht, hb⟩ := Option.map_eq_some_iff.mp hst
    obtain rfl : backup = (b.srv i).backup := hb
    refine ⟨t, ht, fun backup' t' => ?_⟩
    rw [hcount, ht]
    simp only [Option.some.injEq, Prod.mk.injEq]
    exact if_congr (and_congr eq_comm eq_comm) rfl rfl
  · intro i hi
    have hst : b.committed i = none := by
      rw [Backend.committed, Server.curStanding, ← ite_and, if_neg hi]
    have hnone : b.px.lb.lbTree i = none := by
      have := hlb i
      rwa [hst, Option.map_none, Option.map_eq_none_iff] at this
    refine ⟨hnone, fun backup t => ?_⟩
    rw [← List.count_eq_zero, hcount, hnone]
    rfl
  · intro i hi
    have hs := h.settled i (h.srvs ▸ hi)
    rw [Server.Settled, Server.curStanding, Server.nextStanding] at hs
    rcases hc : (b.srv i).currentlyUsable with - | - <;>
      rcases hw : (b.srv i).willbeUsable with - | - <;> simp_all

/-- **No server is lost or doubled**: in every state that is reached from
`fwrr_init_server_groups` by status and weight changes, changes of load and
calls of `fwrr_get_next_server`, each usable server is linked in exactly one
tree of its group; and a further call ends. -/
theorem conserved_of_run {track : ι → Option ι} {b : Backend ι Unit} {b₁ : Backend ι (Fwrr ι)}
    (hrun : Relation.ReflTransGen (FwrrStep track) (fwrrInitServerGroups b) b₁) :
    Conserved b₁ ∧ ∀ now srvtoavoid servers,
      (fwrrGetNextServer now b₁ srvtoavoid servers).isSome = true := by
  have hinit : Lookup.init [] b .rrtree = some (fwrrInitServerGroups b) := rfl
  have hbal : Balanced Fwrr.Synced b.px.srvs b₁ := by
    induction hrun with
    | refl => exact balanced_of_init hinit
    | tail _ hstep ih => exact ih.fwrrStep hstep
  refine ⟨hbal.conserved, fun now srvtoavoid servers => ?_⟩
  obtain ⟨r, hr, -⟩ := hbal.getNextServer now srvtoavoid servers
  rw [hr]
  rfl

theorem conserved_of_run_onePick :
    ∃ b₁, fwrrGetNextServer 0 (fwrrInitServerGroups twoServers) none (bytes "1")
      = some (b₁, some false) ∧ Conserved b₁ := by
  have hpick : (fwrrGetNextServer 0 (fwrrInitServerGroups twoServers) none (bytes "1")).map Prod.snd
      = some (some false) := by decide
  obtain ⟨⟨b₁, r⟩, hr, rfl⟩ := Option.map_eq_some_iff.mp hpick
  have hstep : FwrrStep (fun _ => none) (fwrrInitServerGroups twoServers) b₁ := .next hr
  exact ⟨b₁, hr, (conserved_of_run (.single hstep)).1⟩

end Runs

end SmartHAProxy
