/-
Where the servers of a round robin backend are linked.

`Linked st f out` describes the trees while the servers of `out` are held in
hand, dequeued and not yet requeued: every other server with a standing is in
exactly the tree that its `lb_tree` designates, in the group of its standing,
and nobody else is in a tree.  Dequeueing a server adds it to `out`, queueing
it takes it out again.  With nothing in hand this is the invariant that status
and weight changes keep (`fwrrOps_lawful`).
-/
import SmartHAProxy.Lb.Fwrr

namespace SmartHAProxy

variable {ι : Type*}
variable {backup : Bool} {srv : ι → Server}

/-! ### Reading trees back -/

theorem FwrrGroup.tree_setTree (g : FwrrGroup ι) (t t' : FwrrTree) (e : EbTree UInt32 ι) :
    (g.setTree t e).tree t' = if t' = t then e else g.tree t' := by
  cases t <;> cases t' <;> rfl

theorem FwrrGroup.setTree_init (g : FwrrGroup ι) (t : FwrrTree) (e : EbTree UInt32 ι) :
    (g.setTree t e).init = g.init := by
  cases t <;> rfl

theorem FwrrGroup.setTree_next (g : FwrrGroup ι) (t : FwrrTree) (e : EbTree UInt32 ι) :
    (g.setTree t e).next = g.next := by
  cases t <;> rfl

theorem Fwrr.grp_updGrp (f : Fwrr ι) (backup backup' : Bool) (u : FwrrGroup ι → FwrrGroup ι) :
    (f.updGrp backup u).grp backup'
      = if backup' = backup then u (f.grp backup) else f.grp backup' := by
  cases backup <;> cases backup' <;> rfl

theorem Fwrr.updGrp_lbTree (f : Fwrr ι) (backup : Bool) (u : FwrrGroup ι → FwrrGroup ι) :
    (f.updGrp backup u).lbTree = f.lbTree := by
  cases backup <;> rfl

variable [DecidableEq ι]

theorem tree_dequeueSrv (f : Fwrr ι) (i : ι) (backup : Bool) (t : FwrrTree) :
    ((fwrrDequeueSrv f i).grp backup).tree t = ((f.grp backup).tree t).delete i := by
  cases backup <;> cases t <;> rfl

theorem tree_insert (f : Fwrr ι) (backup backup' : Bool) (t t' : FwrrTree) (key : UInt32) (i : ι) :
    ((fwrrInsert f backup t key i).grp backup').tree t'
      = if backup' = backup ∧ t' = t then ((f.grp backup).tree t).insert key i
        else (f.grp backup').tree t' := by
  show (((f.updGrp backup fun g => g.setTree t ((g.tree t).insert key i))).grp backup').tree t' = _
  rw [Fwrr.grp_updGrp]
  by_cases hb : backup' = backup
  · subst hb
    rw [if_pos rfl, FwrrGroup.tree_setTree]
    by_cases ht : t' = t <;> simp [ht]
  · simp [hb]

/-! ### The invariant -/

/-- `init` and `next` point to the two trees besides `curr`. -/
def FwrrGroup.Slots (g : FwrrGroup ι) : Prop :=
  g.init = .t0 ∧ g.next = .t1 ∨ g.init = .t1 ∧ g.next = .t0

/-- `f'` has the same trees as `f`. -/
structure SameTrees (f f' : Fwrr ι) : Prop where
  tree : ∀ backup t, (f'.grp backup).tree t = (f.grp backup).tree t
  lbTree : f'.lbTree = f.lbTree
  slots : ∀ backup, (f.grp backup).Slots → (f'.grp backup).Slots

omit [DecidableEq ι] in
theorem SameTrees.trans {f f' f'' : Fwrr ι} (h : SameTrees f f') (h' : SameTrees f' f'') :
    SameTrees f f'' where
  tree backup t := (h'.tree backup t).trans (h.tree backup t)
  lbTree := h'.lbTree.trans h.lbTree
  slots backup hs := h'.slots backup (h.slots backup hs)

omit [DecidableEq ι] in
theorem OnlyPositions.sameTrees {f f' : Fwrr ι} (h : OnlyPositions f f') : SameTrees f f' where
  tree backup t := by rw [h.grp]
  lbTree := h.lbTree
  slots backup hs := by rwa [h.grp]

omit [DecidableEq ι] in
theorem sameTrees_updGrp (f : Fwrr ι) (backup : Bool) {u : FwrrGroup ι → FwrrGroup ι}
    (htree : ∀ g t, (u g).tree t = g.tree t) (hslots : ∀ g, g.Slots → (u g).Slots) :
    SameTrees f (f.updGrp backup u) where
  tree backup' t := by
    rw [Fwrr.grp_updGrp]
    split_ifs with hb
    · rw [htree, hb]
    · rfl
  lbTree := f.updGrp_lbTree backup u
  slots backup' hs := by
    rw [Fwrr.grp_updGrp]
    split_ifs with hb
    · exact hslots _ (hb ▸ hs)
    · exact hs

/-- Every server with a standing is linked where its `lb_tree` says, in its
group, except for those in hand. -/
structure Linked (st : ι → Standing) (f : Fwrr ι) (out : List ι) : Prop where
  count : ∀ i backup t, ((f.grp backup).tree t).items.count i
    = if i ∉ out ∧ f.lbTree i = some (backup, t) then 1 else 0
  lbTree : ∀ i, i ∉ out → (f.lbTree i).map Prod.fst = (st i).map Prod.fst
  slots : ∀ backup, (f.grp backup).Slots

namespace Linked

variable {st : ι → Standing} {f f' : Fwrr ι} {out : List ι} {i : ι}

theorem congr {out' : List ι} (h : Linked st f out) (ho : ∀ i, i ∈ out' ↔ i ∈ out) :
    Linked st f out' where
  count i backup t := by
    rw [h.count]
    simp only [ho]
  lbTree i hi := h.lbTree i fun hi' => hi ((ho i).mpr hi')
  slots := h.slots

theorem of_sameTrees (h : Linked st f out) (hs : SameTrees f f') : Linked st f' out where
  count i backup t := by rw [hs.tree, hs.lbTree, h.count]
  lbTree i hi := by rw [hs.lbTree, h.lbTree i hi]
  slots backup := hs.slots backup (h.slots backup)

theorem of_onlyPositions (h : Linked st f out) (hp : OnlyPositions f f') : Linked st f' out :=
  h.of_sameTrees hp.sameTrees

theorem lbTree_of_mem (h : Linked st f out) {t : FwrrTree}
    (hi : i ∈ ((f.grp backup).tree t).items) : i ∉ out ∧ f.lbTree i = some (backup, t) := by
  by_contra hne
  have hc := h.count i backup t
  rw [if_neg hne] at hc
  exact List.count_eq_zero.mp hc hi

theorem standing_of_mem (h : Linked st f out) {t : FwrrTree}
    (hi : i ∈ ((f.grp backup).tree t).items) : (st i).map Prod.fst = some backup := by
  obtain ⟨hout, hlb⟩ := h.lbTree_of_mem hi
  rw [← h.lbTree i hout, hlb]
  rfl

theorem dequeueSrv (h : Linked st f out) (i : ι) : Linked st (fwrrDequeueSrv f i) (i :: out) where
  count j backup t := by
    rw [tree_dequeueSrv, EbTree.count_delete, h.count]
    by_cases hj : j = i
    · simp [hj]
    · simp only [hj, if_false, List.mem_cons, false_or]
      rfl
  lbTree j hj := h.lbTree j fun hj' => hj (List.mem_cons_of_mem i hj')
  slots backup := by
    have hs := h.slots backup
    cases backup <;> exact hs

/-- A server in hand is linked. -/
theorem insert (h : Linked st f (i :: out)) (hi : i ∉ out) (hst : (st i).map Prod.fst = some backup)
    (t : FwrrTree) (key : UInt32) :
    Linked st (fwrrInsert f backup t key i) out where
  count j backup' t' := by
    have hlb : (fwrrInsert f backup t key i).lbTree
        = Function.update f.lbTree i (some (backup, t)) := by
      show Function.update (f.updGrp _ _).lbTree i _ = _
      rw [Fwrr.updGrp_lbTree]
    have hc := h.count j backup' t'
    rw [tree_insert, hlb]
    by_cases hj : j = i
    · subst hj
      simp only [List.mem_cons, true_or, not_true_eq_false, false_and, if_false] at hc
      rw [Function.update_self]
      split_ifs with hbt hne hne
      · rw [EbTree.count_insert, ← hbt.1, ← hbt.2, hc]
        simp
      · exact absurd ⟨hi, by rw [hbt.1, hbt.2]⟩ hne
      · simp only [Option.some.injEq, Prod.mk.injEq] at hne
        exact absurd ⟨hne.2.1.symm, hne.2.2.symm⟩ hbt
      · exact hc
    · rw [Function.update_of_ne hj]
      simp only [List.mem_cons, hj, false_or] at hc
      rw [← hc]
      by_cases hbt : backup' = backup ∧ t' = t
      · rw [if_pos hbt, EbTree.count_insert, if_neg (Ne.symm hj), add_zero, hbt.1, hbt.2]
      · rw [if_neg hbt]
  lbTree j hj := by
    show (Function.update (f.updGrp _ _).lbTree i _ j).map _ = _
    rw [Fwrr.updGrp_lbTree]
    by_cases hji : j = i
    · subst hji
      rw [Function.update_self, hst]
      rfl
    · rw [Function.update_of_ne hji]
      exact h.lbTree j fun hj' => hj ((List.mem_cons.mp hj').resolve_left hji)
  slots backup' := by
    show ((f.updGrp backup _).grp backup').Slots
    rw [Fwrr.grp_updGrp]
    split_ifs with hb
    · rw [FwrrGroup.Slots, FwrrGroup.setTree_init, FwrrGroup.setTree_next]
      exact h.slots backup
    · exact h.slots backup'

theorem removeFromTree (h : Linked st f (i :: out)) :
    Linked (Function.update st i none) (fwrrRemoveFromTree f i) out where
  count j backup t := by
    show ((f.grp backup).tree t).items.count j = _
    rw [h.count]
    by_cases hj : j = i
    · subst hj
      simp [fwrrRemoveFromTree]
    · simp [fwrrRemoveFromTree, hj]
  lbTree j hj := by
    by_cases hji : j = i
    · subst hji
      simp [fwrrRemoveFromTree]
    · simp only [fwrrRemoveFromTree, Function.update_of_ne hji]
      exact h.lbTree j fun hj' => hj ((List.mem_cons.mp hj').resolve_left hji)
  slots backup := h.slots backup

theorem update (h : Linked st f (i :: out)) (s : Standing) :
    Linked (Function.update st i s) f (i :: out) where
  count := h.count
  lbTree j hj := by
    rw [Function.update_of_ne fun hji => hj (by simp [hji])]
    exact h.lbTree j hj
  slots := h.slots

theorem hold (h : Linked st f out) (hst : st i = none) : Linked st f (i :: out) where
  count j backup t := by
    rw [h.count]
    by_cases hj : j = i
    · subst hj
      by_cases hout : j ∈ out
      · simp [hout]
      · have hlb := h.lbTree j hout
        rw [hst, Option.map_none, Option.map_eq_none_iff] at hlb
        simp [hlb]
    · simp [hj]
  lbTree j hj := h.lbTree j fun hj' => hj (List.mem_cons_of_mem i hj')
  slots := h.slots

theorem queueSrv (h : Linked st f (i :: out)) (hi : i ∉ out) (hw : (srv i).willbeUsable = true)
    (hst : (st i).map Prod.fst = some (srv i).backup) : Linked st (fwrrQueueSrv srv f i) out := by
  simp only [fwrrQueueSrv, hw, Bool.not_true, Bool.false_eq_true, if_false]
  split_ifs
  · refine Linked.insert ?_ hi hst _ _
    exact h.of_onlyPositions ⟨rfl, rfl, rfl⟩
  · exact h.insert hi hst _ _

theorem place (h : Linked st f (i :: out)) (hi : i ∉ out) (hw : (srv i).willbeUsable = true)
    (hst : (st i).map Prod.fst = some (srv i).backup) : Linked st (fwrrPlace srv f i) out := by
  refine queueSrv ?_ hi hw hst
  exact (h.of_onlyPositions (onlyPositions_getSrv srv f i)).of_onlyPositions ⟨rfl, rfl, rfl⟩

theorem replace (h : Linked st f []) (hw : (srv i).willbeUsable = true) :
    Linked (Function.update st i (srv i).nextStanding) (fwrrReplace srv f i) [] := by
  have hst : (Function.update st i (srv i).nextStanding i).map Prod.fst = some (srv i).backup := by
    rw [Function.update_self, Server.nextStanding, hw]
    rfl
  have hout : i ∉ ([] : List ι) := List.not_mem_nil
  simp only [fwrrReplace]
  split_ifs
  · exact ((h.dequeueSrv i).update _).insert hout hst _ _
  · exact ((h.dequeueSrv i).update _).place hout hw hst
  · refine queueSrv ?_ hout hw hst
    exact ((h.of_onlyPositions (onlyPositions_adjust srv f i)).dequeueSrv i).update _

end Linked

/-! ### Status and weight changes -/

/-- The weights of the groups are the totals, and the trees hold the servers
that have a standing. -/
def Fwrr.Synced (st : ι → Standing) (f : Fwrr ι) (wact wbck : UInt32) : Prop :=
  f.nextWeights = (wact, wbck) ∧ Linked st f []

theorem Linked.updGrp_nextWeight {st : ι → Standing} {f : Fwrr ι} {out : List ι}
    (h : Linked st f out) (backup : Bool) (w : FwrrGroup ι → UInt32) :
    Linked st (f.updGrp backup fun g => { g with nextWeight := w g }) out := by
  apply h.of_sameTrees
  apply sameTrees_updGrp
  · intro g t
    cases t <;> rfl
  · exact fun _ hs => hs

/-- The groups' own copies of the weights stay in step with the totals, and the
trees with the standings. -/
theorem fwrrOps_lawful (ι : Type*) [DecidableEq ι] : (fwrrOps ι).Lawful Fwrr.Synced where
  subWeight px s st h := by
    obtain ⟨hw, hlinked⟩ := h
    obtain ⟨hact, hbck⟩ := Prod.mk.inj hw
    refine ⟨px.lb.updGrp s.backup fun g => { g with nextWeight := g.nextWeight - s.curEweight }, ?_,
      ?_, hlinked.updGrp_nextWeight _ _⟩ <;> cases hb : s.backup
    · simp [fwrrOps, fwrrMoveWeight, Fwrr.updGrp, Proxy.subWeight, Proxy.withLb, hb, hact]
    · simp [fwrrOps, fwrrMoveWeight, Fwrr.updGrp, Proxy.subWeight, Proxy.withLb, hb, hbck]
    · simp [Fwrr.updGrp, Proxy.subWeight, hb, Fwrr.nextWeights, hact, hbck]
    · simp [Fwrr.updGrp, Proxy.subWeight, hb, Fwrr.nextWeights, hact, hbck]
  addWeight px s st h := by
    obtain ⟨hw, hlinked⟩ := h
    obtain ⟨hact, hbck⟩ := Prod.mk.inj hw
    refine ⟨px.lb.updGrp s.backup fun g => { g with nextWeight := g.nextWeight + s.nextEweight }, ?_,
      ?_, hlinked.updGrp_nextWeight _ _⟩ <;> cases hb : s.backup
    · simp [fwrrOps, fwrrMoveWeight, Fwrr.updGrp, Proxy.addWeight, Proxy.withLb, hb, hact]
    · simp [fwrrOps, fwrrMoveWeight, Fwrr.updGrp, Proxy.addWeight, Proxy.withLb, hb, hbck]
    · simp [Fwrr.updGrp, Proxy.addWeight, hb, Fwrr.nextWeights, hact, hbck]
    · simp [Fwrr.updGrp, Proxy.addWeight, hb, Fwrr.nextWeights, hact, hbck]
  chgWeight px s st h := by
    obtain ⟨hw, hlinked⟩ := h
    obtain ⟨hact, hbck⟩ := Prod.mk.inj hw
    have hmove (w c n : UInt32) : w - c + n = w + (n - c) := by abel
    refine ⟨px.lb.updGrp s.backup fun g =>
      { g with nextWeight := g.nextWeight - s.curEweight + s.nextEweight }, ?_,
      ?_, hlinked.updGrp_nextWeight _ _⟩ <;> cases hb : s.backup
    · simp [fwrrOps, Fwrr.updGrp, Proxy.chgWeight, Proxy.withLb, hb, hact, hbck, hmove]
    · simp [fwrrOps, Fwrr.updGrp, Proxy.chgWeight, Proxy.withLb, hb, hact, hbck, hmove]
    · simp [Fwrr.updGrp, Proxy.chgWeight, hb, Fwrr.nextWeights, hact, hbck, hmove]
    · simp [Fwrr.updGrp, Proxy.chgWeight, hb, Fwrr.nextWeights, hact, hbck, hmove]
  unlink b i st wact wbck h := ⟨h.1, (h.2.dequeueSrv i).removeFromTree⟩
  link b i st wact wbck h hst hw := by
    refine ⟨(nextWeights_place b.srv b.px.lb i).trans h.1, ?_⟩
    refine ((h.2.hold hst).update _).place List.not_mem_nil hw ?_
    rw [Function.update_self, Server.nextStanding, hw]
    rfl
  relink b i st wact wbck h hw :=
    ⟨(nextWeights_replace b.srv b.px.lb i).trans h.1, h.2.replace hw⟩

/-! ### The initial trees -/

theorem linked_start (wact wbck : UInt32) :
    Linked (fun _ => none) (Fwrr.start wact wbck : Fwrr ι) [] where
  count i backup t := by
    cases backup <;> cases t <;> simp [Fwrr.start, Fwrr.grp, FwrrGroup.start, FwrrGroup.tree]
  lbTree _ _ := rfl
  slots backup := by
    cases backup <;> exact Or.inl ⟨rfl, rfl⟩

theorem Linked.initServer {st : ι → Standing} {f : Fwrr ι} {i : ι} (h : Linked st f [])
    (hst : st i = none) :
    Linked (Function.update st i (srv i).curStanding) (fwrrInitServer srv f i) [] := by
  unfold fwrrInitServer
  rcases hu : (srv i).currentlyUsable with - | -
  · rw [Server.curStanding, hu, if_neg (by decide), ← hst, Function.update_eq_self]
    exact h
  · refine ((h.hold hst).update _).insert List.not_mem_nil ?_ _ _
    rw [Function.update_self, Server.curStanding, hu]
    rfl

theorem Linked.foldl_initServer {l : List ι} (hn : l.Nodup) {st : ι → Standing} {f : Fwrr ι}
    (h : Linked st f []) (hst : ∀ i ∈ l, st i = none) :
    Linked (fun j => if j ∈ l then (srv j).curStanding else st j)
      (l.foldl (fwrrInitServer srv) f) [] := by
  induction l generalizing st f with
  | nil => simpa using h
  | cons i l ih =>
    obtain ⟨hi, hl⟩ := List.nodup_cons.mp hn
    have hst' : ∀ j ∈ l, Function.update st i (srv i).curStanding j = none := by
      intro j hj
      have hji : j ≠ i := fun hji => hi (hji ▸ hj)
      rw [Function.update_of_ne hji]
      exact hst j (List.mem_cons_of_mem i hj)
    have hloop := ih hl (h.initServer (hst i List.mem_cons_self)) hst'
    have hsame : (fun j => if j ∈ i :: l then (srv j).curStanding else st j)
        = fun j => if j ∈ l then (srv j).curStanding
            else Function.update st i (srv i).curStanding j := by
      funext j
      by_cases hji : j = i
      · subst hji
        simp [hi]
      · simp [hji]
    rw [hsame]
    exact hloop

end SmartHAProxy
