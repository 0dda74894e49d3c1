/-
Fast weighted round robin: the keys of the tree `curr` (lb_fwrr.c).

`fwrr_queue_srv` packs the position of a server and its remainder in 32 bits,
256 times the one plus a sixteenth of the other.  The position can be read off
the key if the remainder is below the weight and the position is below 2^24
(`keyFits_fwrrKey`).  Placing a server, drawing it and changing its
weight are followed here as far as they concern `curr`.
-/
import SmartHAProxy.Lb.FwrrNext
import SmartHAProxy.Lb.Group

namespace SmartHAProxy

universe u

/-! ### One key -/

/-- The key that `fwrr_queue_srv` gives to a server in `curr`. -/
def fwrrKey (npos rweight eweight : UInt32) : UInt32 :=
  srvUwghtRange * npos + (srvEwghtMax + rweight - eweight) / beWeightScale

/-- The key did not wrap around, and its parts do not overlap. -/
structure KeyFits (key npos rweight eweight : UInt32) : Prop where
  exact : key.toNat = 256 * npos.toNat + (4096 + rweight.toNat - eweight.toNat) / 16
  remainder : rweight < eweight

theorem toNat_fwrrKey {npos rweight eweight : UInt32} (hr : rweight ≤ srvEwghtMax)
    (hle : eweight ≤ srvEwghtMax) : (fwrrKey npos rweight eweight).toNat =
      (256 * npos.toNat + (4096 + rweight.toNat - eweight.toNat) / 16) % 2 ^ 32 := by
  have hr' : rweight.toNat ≤ 4096 := UInt32.le_iff_toNat_le.mp hr
  have hle' : eweight.toNat ≤ 4096 := UInt32.le_iff_toNat_le.mp hle
  have hsum : (srvEwghtMax + rweight).toNat = 4096 + rweight.toNat := by
    rw [UInt32.toNat_add, show srvEwghtMax.toNat = 4096 from rfl]
    exact Nat.mod_eq_of_lt (by omega)
  have hrem : (srvEwghtMax + rweight - eweight).toNat = 4096 + rweight.toNat - eweight.toNat := by
    rw [UInt32.toNat_sub_of_le _ _ (UInt32.le_iff_toNat_le.mpr (by omega)), hsum]
  rw [fwrrKey, UInt32.toNat_add, UInt32.toNat_mul, UInt32.toNat_div, hrem,
    show srvUwghtRange.toNat = 256 from rfl, show beWeightScale.toNat = 16 from rfl]
  omega

theorem keyFits_fwrrKey {npos rweight eweight : UInt32} (hnpos : npos.toNat < 2 ^ 24)
    (hr : rweight < eweight) (hle : eweight ≤ srvEwghtMax) :
    KeyFits (fwrrKey npos rweight eweight) npos rweight eweight where
  exact := by
    have hr' : rweight.toNat < eweight.toNat := UInt32.lt_iff_toNat_lt.mp hr
    rw [toNat_fwrrKey (UInt32.le_trans (UInt32.le_of_lt hr) hle) hle]
    exact Nat.mod_eq_of_lt (by omega)
  remainder := hr

theorem KeyFits.npos_eq {key npos rweight eweight : UInt32} (h : KeyFits key npos rweight eweight) :
    key.toNat / 256 = npos.toNat := by
  have hr : rweight.toNat < eweight.toNat := UInt32.lt_iff_toNat_lt.mp h.remainder
  rw [h.exact]
  omega

variable {ι : Type u}

/-! ### What does not concern `curr` -/

namespace Fwrr

variable (f : Fwrr ι) (backup : Bool) (u : FwrrGroup ι → FwrrGroup ι)

@[simp] theorem npos_updGrp : (f.updGrp backup u).npos = f.npos := by
  cases backup <;> rfl

@[simp] theorem lpos_updGrp : (f.updGrp backup u).lpos = f.lpos := by
  cases backup <;> rfl

@[simp] theorem rweight_updGrp : (f.updGrp backup u).rweight = f.rweight := by
  cases backup <;> rfl

end Fwrr

/-- The keys in `curr` fit the servers, and the range is small enough for all
positions in it. -/
structure FwrrKeyed (srv : ι → Server) (f : Fwrr ι) : Prop where
  fits : ∀ {backup key i}, (key, i) ∈ (f.grp backup).curr.nodes →
    KeyFits key (f.npos i) (f.rweight i) (srv i).curEweight
  range : ∀ backup, (f.grp backup).currWeight.toNat ≤ 2 ^ 23

/-- `curr` has no other nodes in `f'` than in `f`, and their servers are the same. -/
structure FewerInCurr (f f' : Fwrr ι) : Prop where
  node : ∀ {backup key i}, (key, i) ∈ (f'.grp backup).curr.nodes →
    (key, i) ∈ (f.grp backup).curr.nodes ∧ f'.npos i = f.npos i ∧ f'.rweight i = f.rweight i
  range : ∀ backup, (f'.grp backup).currWeight = (f.grp backup).currWeight

namespace FewerInCurr

variable {f f' f'' : Fwrr ι}

theorem trans (h : FewerInCurr f f') (h' : FewerInCurr f' f'') : FewerInCurr f f'' where
  node hn := by
    obtain ⟨hn', hp', hr'⟩ := h'.node hn
    obtain ⟨hn, hp, hr⟩ := h.node hn'
    exact ⟨hn, hp'.trans hp, hr'.trans hr⟩
  range backup := (h'.range backup).trans (h.range backup)

theorem keyed {srv : ι → Server} (h : FewerInCurr f f') (hk : FwrrKeyed srv f) :
    FwrrKeyed srv f' where
  fits hn := by
    obtain ⟨hn, hp, hr⟩ := h.node hn
    rw [hp, hr]
    exact hk.fits hn
  range backup := by
    rw [h.range]
    exact hk.range backup

theorem of_positions {i : ι} (hp : OnlyPositions f f')
    (hout : ∀ backup, i ∉ (f.grp backup).curr.items)
    (hnpos : ∀ j, j ≠ i → f'.npos j = f.npos j)
    (hrweight : ∀ j, j ≠ i → f'.rweight j = f.rweight j) : FewerInCurr f f' where
  node {backup key j} hn := by
    rw [hp.grp] at hn
    have hj : j ≠ i := by
      rintro rfl
      exact hout backup (List.mem_map.mpr ⟨_, hn, rfl⟩)
    exact ⟨hn, hnpos j hj, hrweight j hj⟩
  range backup := by rw [hp.grp]

end FewerInCurr

variable [DecidableEq ι]

omit [DecidableEq ι] in
theorem currWeight_setTree (g : FwrrGroup ι) (t : FwrrTree) (e : EbTree UInt32 ι) :
    (g.setTree t e).currWeight = g.currWeight := by
  cases t <;> rfl

theorem currWeight_insert (f : Fwrr ι) (backup backup' : Bool) (t : FwrrTree) (key : UInt32)
    (i : ι) : ((fwrrInsert f backup t key i).grp backup').currWeight =
      (f.grp backup').currWeight := by
  show ((f.updGrp backup _).grp backup').currWeight = _
  rw [Fwrr.grp_updGrp]
  split_ifs with hb
  · rw [currWeight_setTree, hb]
  · rfl

theorem FewerInCurr.dequeueSrv {f f' : Fwrr ι} {i : ι} (hp : OnlyPositions f f')
    (hnpos : ∀ j, j ≠ i → f'.npos j = f.npos j)
    (hrweight : ∀ j, j ≠ i → f'.rweight j = f.rweight j) :
    FewerInCurr f (fwrrDequeueSrv f' i) where
  node {backup key j} hn := by
    have htree : ((fwrrDequeueSrv f' i).grp backup).curr = (f'.grp backup).curr.delete i :=
      tree_dequeueSrv f' i backup .curr
    rw [htree, EbTree.mem_nodes_delete, hp.grp] at hn
    exact ⟨hn.1, hnpos j hn.2, hrweight j hn.2⟩
  range backup := by
    have hrange : ((fwrrDequeueSrv f' i).grp backup).currWeight = (f'.grp backup).currWeight := by
      cases backup <;> rfl
    rw [hrange, hp.grp]

theorem notMem_curr_dequeueSrv (f : Fwrr ι) (i : ι) (backup : Bool) :
    i ∉ ((fwrrDequeueSrv f i).grp backup).curr.items := by
  have htree : ((fwrrDequeueSrv f i).grp backup).curr = (f.grp backup).curr.delete i :=
    tree_dequeueSrv f i backup .curr
  rw [htree]
  intro hi
  obtain ⟨n, hn, rfl⟩ := List.mem_map.mp hi
  exact (EbTree.mem_nodes_delete.mp hn).2 rfl

theorem fewerInCurr_insert (f : Fwrr ι) (backup : Bool) {t : FwrrTree} (ht : t ≠ .curr)
    (key : UInt32) (i : ι) : FewerInCurr f (fwrrInsert f backup t key i) where
  node {backup' key' j} hn := by
    have htree : ((fwrrInsert f backup t key i).grp backup').curr = (f.grp backup').curr := by
      refine (tree_insert f backup backup' t .curr key i).trans ?_
      rw [if_neg fun h => ht h.2.symm]
      rfl
    rw [htree] at hn
    have hpos : (fwrrInsert f backup t key i).npos = f.npos := Fwrr.npos_updGrp ..
    have hrem : (fwrrInsert f backup t key i).rweight = f.rweight := Fwrr.rweight_updGrp ..
    exact ⟨hn, congrFun hpos j, congrFun hrem j⟩
  range backup' := currWeight_insert ..

/-! ### Queueing a server -/

namespace FwrrKeyed

variable {srv srv' : ι → Server} {f f' : Fwrr ι} {i : ι}

omit [DecidableEq ι] in
theorem congr (h : FwrrKeyed srv f) (hw : ∀ backup, ∀ j ∈ (f.grp backup).curr.items,
    (srv' j).curEweight = (srv j).curEweight) : FwrrKeyed srv' f where
  fits {backup key j} hn := by
    rw [hw backup j (List.mem_map.mpr ⟨_, hn, rfl⟩)]
    exact h.fits hn
  range := h.range

theorem insert (h : FwrrKeyed srv f) (hout : ∀ backup, i ∉ (f.grp backup).curr.items)
    (backup : Bool) {key : UInt32}
    (hkey : KeyFits key (f.npos i) (f.rweight i) (srv i).curEweight) :
    FwrrKeyed srv (fwrrInsert f backup .curr key i) where
  fits {backup' key' j} hn := by
    have hpos : (fwrrInsert f backup .curr key i).npos = f.npos := Fwrr.npos_updGrp ..
    have hrem : (fwrrInsert f backup .curr key i).rweight = f.rweight := Fwrr.rweight_updGrp ..
    have htree : ((fwrrInsert f backup .curr key i).grp backup').curr =
        if backup' = backup ∧ FwrrTree.curr = .curr then (f.grp backup).curr.insert key i
        else (f.grp backup').curr := tree_insert f backup backup' .curr .curr key i
    rw [hpos, hrem]
    rw [htree] at hn
    split_ifs at hn with hb
    · rcases EbTree.mem_nodes_insert.mp hn with he | hn
      · obtain ⟨rfl, rfl⟩ := Prod.mk.inj he
        exact hkey
      · exact h.fits hn
    · exact h.fits hn
  range backup' := by
    rw [currWeight_insert]
    exact h.range backup'

/-- **`fwrr_queue_srv` computes a key that fits**, if the remainder does. -/
theorem queueSrv (h : FwrrKeyed srv' f) (hslots : ∀ backup, (f.grp backup).Slots)
    (hout : ∀ backup, i ∉ (f.grp backup).curr.items) (hw : (srv i).willbeUsable = true)
    (hcur : (srv' i).curEweight = (srv i).nextEweight) (hle : (srv i).nextEweight ≤ srvEwghtMax)
    (hr : f.rweight i < (srv i).nextEweight) :
    FwrrKeyed srv' (fwrrQueueSrv srv f i) ∧ (fwrrQueueSrv srv f i).rweight = f.rweight := by
  unfold fwrrQueueSrv
  dsimp only
  rw [hw]
  simp only [Bool.not_true, Bool.false_eq_true, if_false]
  split_ifs with hnext
  · -- the server has consumed its share: `next` is not `curr`
    have hne : ((f.grp (srv i).backup).next) ≠ .curr := (hslots (srv i).backup).trees.2.2.1
    have hpos : FewerInCurr f { f with
        npos := Function.update f.npos i (f.npos i - (f.grp (srv i).backup).currWeight) } :=
      .of_positions ⟨rfl, rfl, rfl⟩ hout (fun j hj => Function.update_of_ne hj ..)
        (fun _ _ => rfl)
    exact ⟨(hpos.trans (fewerInCurr_insert _ _ hne _ i)).keyed h, Fwrr.rweight_updGrp ..⟩
  · rw [not_or, not_or] at hnext
    obtain ⟨-, hrange, -⟩ := hnext
    -- below twice the weight of the range, hence below 2^24
    have hcw := h.range (srv i).backup
    have hnpos : (f.npos i).toNat < 2 ^ 24 := by
      rw [ge_iff_le, not_le, UInt32.lt_iff_toNat_lt, UInt32.toNat_mul,
        show UInt32.toNat 2 = 2 from rfl] at hrange
      omega
    refine ⟨h.insert hout _ ?_, Fwrr.rweight_updGrp ..⟩
    rw [hcur]
    exact keyFits_fwrrKey hnpos hr hle

end FwrrKeyed

/-! ### Picking a server -/

/-- Servers are in hand, with remainders below their weights; a range may start
at any time. -/
structure FwrrHand (srv : ι → Server) (st : ι → Standing) (f : Fwrr ι) (hand : List ι) : Prop where
  linked : Linked st f hand
  keyed : FwrrKeyed srv f
  remainder : ∀ i ∈ hand, f.rweight i < (srv i).curEweight
  next : ∀ backup, (f.grp backup).nextWeight.toNat ≤ 2 ^ 23

/-- The servers that have a standing have a weight, and nothing is pending. -/
def StandingsWeighted (srv : ι → Server) (st : ι → Standing) : Prop :=
  ∀ i backup, (st i).map Prod.fst = some backup → 0 < (srv i).curEweight ∧
    (srv i).curEweight ≤ srvEwghtMax ∧ (srv i).nextEweight = (srv i).curEweight

omit [DecidableEq ι] in
theorem FwrrKeyed.updGrp {srv : ι → Server} {f : Fwrr ι} (h : FwrrKeyed srv f) (backup : Bool)
    {u : FwrrGroup ι → FwrrGroup ι} (hcurr : ∀ g, (u g).curr = g.curr)
    (hrange : (u (f.grp backup)).currWeight.toNat ≤ 2 ^ 23) :
    FwrrKeyed srv (f.updGrp backup u) where
  fits {backup' key j} hn := by
    rw [Fwrr.npos_updGrp, Fwrr.rweight_updGrp]
    rw [Fwrr.grp_updGrp] at hn
    split_ifs at hn
    · rw [hcurr] at hn
      exact h.fits hn
    · exact h.fits hn
  range backup' := by
    rw [Fwrr.grp_updGrp]
    split_ifs
    · exact hrange
    · exact h.range backup'

section Draw

variable {srv : ι → Server} {st : ι → Standing} {f : Fwrr ι} {hand : List ι} {backup : Bool}

omit [DecidableEq ι] in
theorem Fwrr.nextWeight_eq {f f' : Fwrr ι} (h : f'.nextWeights = f.nextWeights) (backup : Bool) :
    (f'.grp backup).nextWeight = (f.grp backup).nextWeight := by
  obtain ⟨hact, hbck⟩ := Prod.mk.inj h
  cases backup
  · exact hact
  · exact hbck

theorem rweight_updatePosition {i : ι} (h : (srv i).curEweight ≠ 0) :
    (fwrrUpdatePosition srv f backup i).rweight i =
      if f.rweight i + (f.grp backup).nextWeight % (srv i).curEweight ≥ (srv i).curEweight then
        f.rweight i + (f.grp backup).nextWeight % (srv i).curEweight - (srv i).curEweight
      else f.rweight i + (f.grp backup).nextWeight % (srv i).curEweight := by
  unfold fwrrUpdatePosition
  dsimp only
  rw [if_neg h]
  exact Function.update_self ..

theorem npos_updatePosition {i : ι} (h : (srv i).curEweight ≠ 0) {lpos : UInt32}
    (hlpos : lpos = if f.npos i = 0 then (f.grp backup).currPos else f.npos i) :
    (fwrrUpdatePosition srv f backup i).npos i =
      if f.rweight i + (f.grp backup).nextWeight % (srv i).curEweight ≥ (srv i).curEweight then
        lpos + (f.grp backup).nextWeight / (srv i).curEweight + 1
      else lpos + (f.grp backup).nextWeight / (srv i).curEweight := by
  subst hlpos
  unfold fwrrUpdatePosition
  dsimp only
  rw [if_neg h]
  exact Function.update_self ..

theorem remainder_updatePosition {i : ι} (hr : f.rweight i < (srv i).curEweight)
    (hle : (srv i).curEweight ≤ srvEwghtMax) :
    (fwrrUpdatePosition srv f backup i).rweight i < (srv i).curEweight := by
  have hpos : 0 < (srv i).curEweight := UInt32.lt_of_le_of_lt (UInt32.zero_le ..) hr
  rw [rweight_updatePosition (UInt32.pos_iff_ne_zero.mp hpos)]
  generalize (srv i).curEweight = e at *
  generalize (f.grp backup).nextWeight = w
  have hmod := Nat.mod_lt w.toNat (UInt32.lt_iff_toNat_lt.mp hpos)
  have hle' : e.toNat ≤ 4096 := UInt32.le_iff_toNat_le.mp hle
  have hr' : (f.rweight i).toNat < e.toNat := UInt32.lt_iff_toNat_lt.mp hr
  have hsum : (f.rweight i + w % e).toNat = (f.rweight i).toNat + w.toNat % e.toNat := by
    rw [UInt32.toNat_add, UInt32.toNat_mod]
    exact Nat.mod_eq_of_lt (by omega)
  rw [UInt32.lt_iff_toNat_lt]
  split_ifs with hcarry
  · rw [UInt32.toNat_sub_of_le _ _ hcarry, hsum]
    omega
  · exact Nat.lt_of_not_le fun h => hcarry (UInt32.le_iff_toNat_le.mpr h)

theorem positions_updatePosition {i j : ι} (hj : j ≠ i) :
    (fwrrUpdatePosition srv f backup i).npos j = f.npos j ∧
      (fwrrUpdatePosition srv f backup i).rweight j = f.rweight j := by
  unfold fwrrUpdatePosition
  dsimp only
  split
  · exact ⟨rfl, rfl⟩
  · exact ⟨Function.update_of_ne hj .., Function.update_of_ne hj ..⟩

namespace FwrrHand

theorem collectWeights (h : FwrrHand srv st f hand) (backup : Bool) :
    FwrrHand srv st (fwrrCollectWeights f backup) hand where
  linked := h.linked.of_sameTrees (sameTrees_collectWeights f backup)
  keyed := by
    apply h.keyed.updGrp backup
    · intro g
      split_ifs <;> rfl
    · split_ifs
      · exact h.next backup
      · exact h.keyed.range backup
  remainder i hi := by
    rw [show (fwrrCollectWeights f backup).rweight = f.rweight from Fwrr.rweight_updGrp ..]
    exact h.remainder i hi
  next backup' := by
    rw [Fwrr.nextWeight_eq (nextWeights_collectWeights backup f)]
    exact h.next backup'

theorem switchTrees (h : FwrrHand srv st f hand) (backup : Bool) :
    FwrrHand srv st (fwrrSwitchTrees f backup) hand where
  linked := h.linked.of_sameTrees (sameTrees_switchTrees f backup)
  keyed := h.keyed.updGrp backup (fun _ => rfl) (h.next backup)
  remainder i hi := by
    rw [show (fwrrSwitchTrees f backup).rweight = f.rweight from Fwrr.rweight_updGrp ..]
    exact h.remainder i hi
  next backup' := by
    rw [Fwrr.nextWeight_eq (nextWeights_switchTrees backup f)]
    exact h.next backup'

/-- The server that is found has a remainder below its weight: it comes from
`curr`, or its remainder has just been cleared. -/
theorem getServerFromGroup (h : FwrrHand srv st f hand) (backup : Bool) :
    FwrrHand srv st (fwrrGetServerFromGroup srv f backup).1 hand ∧
      ∀ i, (fwrrGetServerFromGroup srv f backup).2 = some i →
        (fwrrGetServerFromGroup srv f backup).1.rweight i < (srv i).curEweight := by
  have hcurr : ∀ i, (f.grp backup).curr.first = some i → f.rweight i < (srv i).curEweight := by
    intro i hi
    obtain ⟨⟨key, j⟩, hn, rfl⟩ := List.mem_map.mp (EbTree.first_mem hi)
    exact (h.keyed.fits hn).remainder
  unfold fwrrGetServerFromGroup
  dsimp only
  split_ifs
  · exact ⟨h, hcurr⟩
  · split
    · rename_i j hj
      split_ifs with hweight
      · -- a server of `init`
        have hmem := EbTree.first_mem hj
        obtain ⟨hout, hlb⟩ := h.linked.lbTree_of_mem hmem
        have hne := (h.linked.slots backup).trees.2.1
        have hnot : ∀ backup', j ∉ (f.grp backup').curr.items := by
          intro backup' hj'
          have hlb' : f.lbTree j = some (backup', .curr) := (h.linked.lbTree_of_mem hj').2
          rw [hlb] at hlb'
          exact hne (Prod.mk.inj (Option.some.inj hlb')).2
        have hpos : OnlyPositions f (fwrrGetSrvInit f j) := ⟨rfl, rfl, rfl⟩
        have hfewer : FewerInCurr f (fwrrGetSrvInit f j) :=
          .of_positions hpos hnot (fun k hk => Function.update_of_ne hk ..)
            (fun k hk => Function.update_of_ne hk ..)
        refine ⟨⟨h.linked.of_onlyPositions hpos, hfewer.keyed h.keyed, fun i hi => ?_, ?_⟩, ?_⟩
        · have hij : i ≠ j := fun he => hout (he ▸ hi)
          rw [show (fwrrGetSrvInit f j).rweight i = f.rweight i from Function.update_of_ne hij ..]
          exact h.remainder i hi
        · exact fun backup' => h.next backup'
        · intro i hi
          obtain rfl := Option.some.inj hi
          rw [show (fwrrGetSrvInit f j).rweight j = 0 from Function.update_self ..]
          exact UInt32.pos_iff_ne_zero.mpr hweight
      · exact ⟨h, hcurr⟩
    · exact ⟨h, hcurr⟩

theorem draw (h : FwrrHand srv st f hand) (backup switched : Bool) :
    FwrrHand srv st (fwrrDraw srv f backup switched).1 hand ∧
      ∀ i, (fwrrDraw srv f backup switched).2.2 = some i →
        (fwrrDraw srv f backup switched).1.rweight i < (srv i).curEweight := by
  obtain ⟨hand₁, hrem₁⟩ := h.getServerFromGroup backup
  unfold fwrrDraw
  rcases hget : fwrrGetServerFromGroup srv f backup with ⟨f₁, - | j⟩
  · rw [hget] at hand₁
    dsimp only at hand₁ ⊢
    split_ifs
    · exact ⟨hand₁, fun i hi => nomatch hi⟩
    · exact (hand₁.switchTrees backup).getServerFromGroup backup
  · rw [hget] at hand₁ hrem₁
    exact ⟨hand₁, hrem₁⟩

theorem consume (h : FwrrHand srv st f hand) (hst : StandingsWeighted srv st) {i : ι}
    {t : FwrrTree} (hi : i ∈ ((f.grp backup).tree t).items)
    (hr : f.rweight i < (srv i).curEweight) :
    FwrrHand srv st (fwrrConsume srv f backup i) (i :: hand) := by
  have hpos := onlyPositions_updatePosition srv f backup i
  have hfewer : FewerInCurr f (fwrrDequeueSrv (fwrrUpdatePosition srv f backup i) i) :=
    .dequeueSrv hpos (fun j hj => (positions_updatePosition hj).1)
      (fun j hj => (positions_updatePosition hj).2)
  have hout := (h.linked.lbTree_of_mem hi).1
  have hrem : (fwrrConsume srv f backup i).rweight =
      (fwrrUpdatePosition srv f backup i).rweight := Fwrr.rweight_updGrp ..
  refine ⟨h.linked.consume srv backup i, ?_, fun j hj => ?_, fun backup' => ?_⟩
  · have hkeyed := hfewer.keyed h.keyed
    have hrange := hkeyed.range backup
    exact hkeyed.updGrp backup (u := fun g => { g with currPos := g.currPos + 1 })
      (fun _ => rfl) hrange
  · rw [hrem]
    rcases List.mem_cons.mp hj with rfl | hj
    · exact remainder_updatePosition hr (hst j backup (h.linked.standing_of_mem hi)).2.1
    · have hji : j ≠ i := fun he => hout (he ▸ hj)
      rw [(positions_updatePosition hji).2]
      exact h.remainder j hj
  · rw [Fwrr.nextWeight_eq (nextWeights_consume srv backup f i)]
    exact h.next backup'

theorem congr {hand' : List ι} (h : FwrrHand srv st f hand) (hh : ∀ i, i ∈ hand' ↔ i ∈ hand) :
    FwrrHand srv st f hand' :=
  ⟨h.linked.congr hh, h.keyed, fun i hi => h.remainder i ((hh i).mp hi), h.next⟩

/-- **The search keeps the keys right**, and so are the remainders in hand. -/
theorem search (c : Criteria ι) (hst : StandingsWeighted srv st) (fuel : ℕ) {s : FwrrSearch ι}
    {r : FwrrSearch ι × Option ι} (h : FwrrHand srv st s.fwrr s.full)
    (havoided : ∀ i, s.avoided = some i → i ∈ s.full)
    (hr : fwrrSearch srv c backup fuel s = some r) :
    FwrrHand srv st r.1.fwrr (r.2.toList ++ r.1.full) := by
  induction fuel generalizing s with
  | zero => cases hr
  | succ fuel ih =>
    obtain ⟨hdraw, hrem⟩ := (h.collectWeights backup).draw backup s.switched
    obtain ⟨hsame, hmem⟩ := draw_spec srv (fwrrCollectWeights s.fwrr backup) backup s.switched
    rw [fwrrSearch] at hr
    rcases he : fwrrDraw srv (fwrrCollectWeights s.fwrr backup) backup s.switched with
      ⟨f, switched, - | i⟩
    · -- no server is left: the avoided one is taken, if any
      simp only [he, Option.some.injEq] at hr
      subst hr
      rw [he] at hdraw
      apply hdraw.congr
      intro j
      rcases ha : s.avoided with - | k
      · rw [Option.toList_none, List.nil_append]
      · rw [Option.toList_some, List.singleton_append, List.mem_cons]
        exact ⟨fun hj => hj.elim (fun he => he ▸ havoided k ha) id, .inr⟩
    · simp only [he] at hr
      rw [he] at hdraw hrem hsame hmem
      obtain ⟨t, ht⟩ := hmem i rfl
      have ht' : i ∈ ((f.grp backup).tree t).items := by
        rw [show (f.grp backup).tree t = _ from hsame.tree backup t]
        exact ht
      have hcons := hdraw.consume hst ht' (hrem i rfl)
      split at hr
      · obtain rfl := Option.some.inj hr
        exact hcons
      · refine ih hcons (fun j hj => ?_) hr
        dsimp only at hj
        split_ifs at hj
        · obtain rfl := Option.some.inj hj
          exact List.mem_cons_self
        · exact List.mem_cons_of_mem i (havoided j hj)

theorem notMem_curr (h : FwrrHand srv st f hand) {i : ι} (hi : i ∈ hand) (backup : Bool) :
    i ∉ (f.grp backup).curr.items := by
  intro hmem
  have hmem' : i ∈ ((f.grp backup).tree .curr).items := hmem
  exact (h.linked.lbTree_of_mem hmem').1 hi

theorem queueSrv {i : ι} (h : FwrrHand srv st f (i :: hand)) (hi : i ∉ hand)
    (hst : (st i).map Prod.fst = some backup) (husable : StandingsUsable srv st)
    (hweighted : StandingsWeighted srv st) : FwrrHand srv st (fwrrQueueSrv srv f i) hand := by
  obtain ⟨hw, hb⟩ := husable i backup hst
  obtain ⟨-, hle, hnext⟩ := hweighted i backup hst
  have hr := h.remainder i List.mem_cons_self
  obtain ⟨hkeyed, hrem⟩ := h.keyed.queueSrv h.linked.slots
    (h.notMem_curr List.mem_cons_self) hw hnext.symm (hnext ▸ hle) (hnext ▸ hr)
  refine ⟨h.linked.queueSrv hi hw (hst.trans (congrArg some hb.symm)), hkeyed, fun j hj => ?_,
    fun backup' => ?_⟩
  · rw [hrem]
    exact h.remainder j (List.mem_cons_of_mem i hj)
  · rw [Fwrr.nextWeight_eq (nextWeights_queueSrv srv f i)]
    exact h.next backup'

theorem requeue {i : ι} (h : FwrrHand srv st f (i :: hand)) (hi : i ∉ hand)
    (hst : (st i).map Prod.fst = some backup) (husable : StandingsUsable srv st)
    (hweighted : StandingsWeighted srv st) (switched : Bool) :
    FwrrHand srv st (fwrrRequeue srv backup switched f i) hand := by
  unfold fwrrRequeue
  split_ifs
  · have hne := (h.linked.slots backup).trees.2.1
    refine ⟨h.linked.insert hi hst _ _, (fewerInCurr_insert f backup hne _ i).keyed h.keyed,
      fun j hj => ?_, fun backup' => ?_⟩
    · rw [show (fwrrQueueByWeight srv f backup (f.grp backup).init i).rweight = f.rweight from
        Fwrr.rweight_updGrp ..]
      exact h.remainder j (List.mem_cons_of_mem i hj)
    · have hnext : (fwrrQueueByWeight srv f backup (f.grp backup).init i).nextWeights =
          f.nextWeights := nextWeights_insert ..
      rw [Fwrr.nextWeight_eq hnext]
      exact h.next backup'
  · exact h.queueSrv hi hst husable hweighted

/-- **A pick keeps the keys right.** -/
theorem pick {r : Fwrr ι × Option ι} (h : FwrrHand srv st f []) (husable : StandingsUsable srv st)
    (hweighted : StandingsWeighted srv st) (c : Criteria ι)
    (hr : fwrrPick srv c backup f = some r) : FwrrHand srv st r.1 [] := by
  obtain ⟨⟨s, selected⟩, hsearch, rfl⟩ := Option.map_eq_some_iff.mp hr
  have hstart : InHand st backup ⟨f, false, [], none⟩ none := ⟨h.linked, List.nodup_nil, by simp⟩
  obtain ⟨r', hr', hin⟩ := fwrrSearch_spec srv c _ hstart (by simp) (Nat.lt_succ_self _)
  obtain rfl := Option.some.inj (hsearch.symm.trans hr')
  have hhand : FwrrHand srv st s.fwrr (selected.toList ++ s.full) :=
    search (s := ⟨f, false, [], none⟩) c hweighted _ h (fun _ hi => nomatch hi) hsearch
  show FwrrHand srv st (fwrrFinish srv backup s selected) []
  refine foldl_requeue (P := FwrrHand srv st) ?_ hin.nodup fun f i out hi hout hf =>
    hf.requeue hout (hin.group i (List.mem_append_right _ hi)) husable hweighted s.switched
  rcases selected with - | i
  · refine hhand.congr fun j => ?_
    simp
  · -- the selected server may also be on the list, if it was avoided in vain
    have hst := hin.group i (by simp)
    refine queueSrv ?_ (by simp) hst husable hweighted
    refine hhand.congr fun j => ?_
    by_cases hj : j = i <;> simp [hj]

end FwrrHand

end Draw

/-! ### Status and weight changes -/

section Changes

variable {srv : ι → Server} {f : Fwrr ι} {i : ι}

theorem positions_getSrv (srv : ι → Server) (f : Fwrr ι) (i : ι) :
    (∀ j, j ≠ i → (fwrrGetSrv srv f i).npos j = f.npos j ∧
      (fwrrGetSrv srv f i).rweight j = f.rweight j) ∧
      ((fwrrGetSrv srv f i).rweight i = f.rweight i ∨ (fwrrGetSrv srv f i).rweight i = 0) := by
  unfold fwrrGetSrv
  dsimp only
  split_ifs
  · exact ⟨fun j hj => ⟨Function.update_of_ne hj .., Function.update_of_ne hj ..⟩,
      .inr (Function.update_self ..)⟩
  · exact ⟨fun j hj => ⟨Function.update_of_ne hj .., rfl⟩, .inl rfl⟩
  · exact ⟨fun j hj => ⟨Function.update_of_ne hj .., rfl⟩, .inl rfl⟩
  · exact ⟨fun _ _ => ⟨rfl, rfl⟩, .inl rfl⟩

theorem positions_adjust (hpos : 0 < (srv i).nextEweight) :
    (∀ j, j ≠ i → (fwrrAdjust srv f i).npos j = f.npos j ∧
      (fwrrAdjust srv f i).rweight j = f.rweight j) ∧ (fwrrAdjust srv f i).rweight i = 0 := by
  obtain ⟨hothers, -⟩ := positions_getSrv srv f i
  unfold fwrrAdjust
  dsimp only
  rw [if_pos hpos]
  refine ⟨fun j hj => ⟨?_, ?_⟩, Function.update_self ..⟩
  · exact (Function.update_of_ne hj ..).trans (hothers j hj).1
  · exact (Function.update_of_ne hj ..).trans (hothers j hj).2

namespace FwrrKeyed

theorem commit (h : FwrrKeyed srv f) (hout : ∀ backup, i ∉ (f.grp backup).curr.items) (s : Server) :
    FwrrKeyed (Function.update srv i s) f := by
  apply h.congr
  intro backup j hj
  have hji : j ≠ i := fun he => hout backup (he ▸ hj)
  rw [Function.update_of_ne hji]

theorem place (h : FwrrKeyed srv f) (hslots : ∀ backup, (f.grp backup).Slots)
    (hout : ∀ backup, i ∉ (f.grp backup).curr.items) (hw : (srv i).willbeUsable = true)
    (hle : (srv i).nextEweight ≤ srvEwghtMax) (hr : f.rweight i < (srv i).nextEweight) :
    FwrrKeyed (Function.update srv i (srv i).lbCommitStatus) (fwrrPlace srv f i) := by
  obtain ⟨hothers, hrem⟩ := positions_getSrv srv f i
  have hpos := onlyPositions_getSrv srv f i
  unfold fwrrPlace
  dsimp only
  generalize (fwrrGetSrv srv f i).grp (srv i).backup = g
  generalize g.currPos + (g.nextWeight + g.currWeight - g.currPos) / (srv i).nextEweight = npos
  generalize fwrrGetSrv srv f i = f₁ at *
  have hplaced : OnlyPositions f { f₁ with npos := Function.update f₁.npos i npos } :=
    ⟨hpos.act, hpos.bck, hpos.lbTree⟩
  have hfewer : FewerInCurr f { f₁ with npos := Function.update f₁.npos i npos } :=
    .of_positions hplaced hout
      (fun j hj => (Function.update_of_ne hj ..).trans (hothers j hj).1)
      (fun j hj => (hothers j hj).2)
  refine ((hfewer.keyed (h.commit hout _)).queueSrv ?_ ?_ hw ?_ hle ?_).1
  · intro backup
    rw [hplaced.grp]
    exact hslots backup
  · intro backup
    rw [hplaced.grp]
    exact hout backup
  · rw [Function.update_self]
    rfl
  · show f₁.rweight i < _
    rcases hrem with he | he
    · rw [he]
      exact hr
    · rw [he]
      exact UInt32.pos_iff_ne_zero.mpr (Server.eweight_ne_zero_of_usableWith hw)

theorem replace {st : ι → Standing} (h : FwrrKeyed srv f) (hlinked : Linked st f [])
    (hst : (st i).isSome) (hw : (srv i).willbeUsable = true)
    (hle : (srv i).nextEweight ≤ srvEwghtMax) :
    FwrrKeyed (Function.update srv i (srv i).lbCommitStatus) (fwrrReplace srv f i) := by
  have hpos : 0 < (srv i).nextEweight :=
    UInt32.pos_iff_ne_zero.mpr (Server.eweight_ne_zero_of_usableWith hw)
  have hdeq : FewerInCurr f (fwrrDequeueSrv f i) :=
    .dequeueSrv ⟨rfl, rfl, rfl⟩ (fun _ _ => rfl) (fun _ _ => rfl)
  have hcommit := (hdeq.keyed h).commit (notMem_curr_dequeueSrv f i) (srv i).lbCommitStatus
  unfold fwrrReplace
  dsimp only
  split_ifs with hinit hnone
  · -- still in `init`
    have hne := (hlinked.slots (srv i).backup).trees.2.1
    exact (fewerInCurr_insert _ _ hne _ i).keyed hcommit
  · -- a server with a standing is linked
    have hlb := hlinked.lbTree i List.not_mem_nil
    rw [hnone, Option.map_none, eq_comm, Option.map_eq_none_iff] at hlb
    rw [hlb] at hst
    cases hst
  · obtain ⟨hothers, hrem⟩ := positions_adjust (f := f) hpos
    have hadj := onlyPositions_adjust srv f i
    have hfewer : FewerInCurr f (fwrrDequeueSrv (fwrrAdjust srv f i) i) :=
      .dequeueSrv hadj (fun j hj => (hothers j hj).1) (fun j hj => (hothers j hj).2)
    have hout := notMem_curr_dequeueSrv (fwrrAdjust srv f i) i
    refine ((hfewer.keyed h).commit hout _).queueSrv ?_ hout hw ?_ hle ?_ |>.1
    · exact ((hlinked.of_onlyPositions hadj).dequeueSrv i).slots
    · rw [Function.update_self]
      rfl
    · show (fwrrAdjust srv f i).rweight i < _
      rw [hrem]
      exact hpos

end FwrrKeyed

end Changes

end SmartHAProxy
