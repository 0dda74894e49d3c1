/-
Fast weighted round robin: the rounds (lb_fwrr.c).

A round is what lies between two switches of the trees.  All servers of the
group wait in `init` when it starts and in `next` when it ends.  A server of
weight `e` that was first drawn at position `p` of a range of length `W`
stands at `p + k * W / e` after `k` draws (`FwrrAt`), whatever the others do;
`p` is in the range, so that the server has left it after `e` draws.

Main results: `FwrrAt.step` for the positions of one server, `count_le` and
`count_pos` for a round.
-/
import SmartHAProxy.Lb.FwrrOrder
import SmartHAProxy.Lb.FwrrKeys
import Mathlib.Algebra.BigOperators.Group.Finset.Basic
import Mathlib.Algebra.Order.Group.Nat

namespace SmartHAProxy

universe u

/-! ### Positions -/

/-- A server of weight `e` in a range of length `W`, first drawn at `p`, after
`k` draws. -/
structure FwrrAt (W e p k : ℕ) (npos rweight : UInt32) : Prop where
  npos : npos.toNat = p + k * W / e
  rweight : rweight.toNat = k * W % e

/-- **The quotient and the carried remainder add up** to the next position. -/
theorem FwrrAt.step {W e npos rweight : UInt32} {p k : ℕ}
    (h : FwrrAt W.toNat e.toNat p k npos rweight) (he : 0 < e.toNat) (heW : e.toNat ≤ W.toNat)
    (hW : W.toNat < 2 ^ 30) (hpos : npos.toNat ≤ 2 * W.toNat) :
    FwrrAt W.toNat e.toNat p (k + 1)
      (if rweight + W % e ≥ e then npos + W / e + 1 else npos + W / e)
      (if rweight + W % e ≥ e then rweight + W % e - e else rweight + W % e) := by
  have hr := h.rweight
  have hp := h.npos
  have hrlt : rweight.toNat < e.toNat := hr ▸ Nat.mod_lt _ he
  have hmod : W.toNat % e.toNat < e.toNat := Nat.mod_lt _ he
  have hdiv : W.toNat / e.toNat ≤ W.toNat := Nat.div_le_self ..
  have hsum : (rweight + W % e).toNat = rweight.toNat + W.toNat % e.toNat := by
    rw [UInt32.toNat_add, UInt32.toNat_mod]
    exact Nat.mod_eq_of_lt (by omega)
  have hnext : (npos + W / e).toNat = npos.toNat + W.toNat / e.toNat := by
    rw [UInt32.toNat_add, UInt32.toNat_div]
    exact Nat.mod_eq_of_lt (by omega)
  have hsucc : (k + 1) * W.toNat = k * W.toNat + W.toNat := Nat.succ_mul k W.toNat
  by_cases hcarry : rweight + W % e ≥ e
  · have hcarry' : e.toNat ≤ k * W.toNat % e.toNat + W.toNat % e.toNat := by
      rw [← hr, ← hsum]
      exact UInt32.le_iff_toNat_le.mp hcarry
    have hquot := Nat.add_div_eq_of_le_mod_add_mod hcarry' he
    have hrest := Nat.add_mod_add_of_le_add_mod hcarry'
    rw [if_pos hcarry, if_pos hcarry]
    refine ⟨?_, ?_⟩
    · rw [UInt32.toNat_add, hnext, show UInt32.toNat 1 = 1 from rfl, hsucc, hquot, hp]
      omega
    · rw [UInt32.toNat_sub_of_le _ _ hcarry, hsum, hr, hsucc]
      omega
  · have hcarry' : k * W.toNat % e.toNat + W.toNat % e.toNat < e.toNat := by
      rw [← hr, ← hsum]
      exact Nat.lt_of_not_le fun hle => hcarry (UInt32.le_iff_toNat_le.mpr hle)
    have hquot := Nat.add_div_eq_of_add_mod_lt hcarry'
    have hrest := Nat.add_mod_of_add_mod_lt hcarry'
    rw [if_neg hcarry, if_neg hcarry]
    refine ⟨?_, ?_⟩
    · rw [hnext, hsucc, hquot, hp]
      omega
    · rw [hsum, hr, hsucc, hrest]

theorem lt_weight_of_inRange {W e p k : ℕ} (he : 0 < e) (hp : W ≤ p) (hlt : p + k * W / e < 2 * W) :
    k < e := by
  by_contra hge
  have hle : W ≤ k * W / e := by
    rw [Nat.le_div_iff_mul_le he, Nat.mul_comm]
    exact Nat.mul_le_mul_right W (Nat.le_of_not_lt hge)
  omega

theorem length_eq_sum_count {ι : Type u} [DecidableEq ι] {members l : List ι}
    (hn : members.Nodup) (hl : ∀ i ∈ l, i ∈ members) :
    l.length = (members.map fun i => l.count i).sum := by
  rw [← List.sum_toFinset _ hn, ← List.sum_toFinset_count_eq_length l]
  apply Finset.sum_subset
  · intro i hi
    exact List.mem_toFinset.mpr (hl i (List.mem_toFinset.mp hi))
  · intro i _ hi
    exact List.count_eq_zero.mpr fun hmem => hi (List.mem_toFinset.mpr hmem)

variable {ι : Type u} [DecidableEq ι]

/-! ### Draws -/

section Draws

variable {srv : ι → Server} {f f₁ : Fwrr ι} {backup : Bool} {i : ι}

theorem getServerFromGroup_some (h : fwrrGetServerFromGroup srv f backup = (f₁, some i)) :
    f₁ = f ∧ i ∈ (f.grp backup).curr.items ∨
      f₁ = fwrrGetSrvInit f i ∧ i ∈ ((f.grp backup).tree (f.grp backup).init).items := by
  unfold fwrrGetServerFromGroup at h
  dsimp only at h
  have hcurr (he : (f, (f.grp backup).curr.first) = (f₁, some i)) :
      f₁ = f ∧ i ∈ (f.grp backup).curr.items := by
    obtain ⟨rfl, hfirst⟩ := Prod.mk.inj he
    exact ⟨rfl, EbTree.first_mem hfirst⟩
  split_ifs at h
  · exact .inl (hcurr h)
  · split at h
    · rename_i j hj
      split_ifs at h
      · obtain ⟨rfl, hi⟩ := Prod.mk.inj h
        obtain rfl := Option.some.inj hi
        exact .inr ⟨rfl, EbTree.first_mem hj⟩
      · exact .inl (hcurr h)
    · exact .inl (hcurr h)

theorem getServerFromGroup_none (h : fwrrGetServerFromGroup srv f backup = (f₁, none)) :
    f₁ = f ∧ (f.grp backup).curr.first = none ∧
      ∀ j, ((f.grp backup).tree (f.grp backup).init).first = some j → (srv j).curEweight = 0 := by
  unfold fwrrGetServerFromGroup at h
  dsimp only at h
  split_ifs at h with hdue
  · obtain ⟨rfl, hnone⟩ := Prod.mk.inj h
    rw [hnone] at hdue
    cases hdue
  · split at h
    · rename_i j hj
      split_ifs at h with hweight
      · cases (Prod.mk.inj h).2
      · obtain ⟨rfl, hnone⟩ := Prod.mk.inj h
        refine ⟨rfl, hnone, fun k hk => ?_⟩
        obtain rfl := Option.some.inj (hj.symm.trans hk)
        exact not_not.mp hweight
    · rename_i hinit
      obtain ⟨rfl, hnone⟩ := Prod.mk.inj h
      refine ⟨rfl, hnone, fun k hk => ?_⟩
      rw [hinit] at hk
      cases hk

end Draws

/-! ### Rounds -/

/-- The group has these members and their total weight; nothing wraps around. -/
structure FwrrTotal (st : ι → Standing) (w : ι → UInt32) (backup : Bool) (members : List ι)
    (W : UInt32) : Prop where
  nodup : members.Nodup
  mem : ∀ {i}, i ∈ members ↔ (st i).map Prod.fst = some backup
  pos : ∀ i ∈ members, 0 < (w i).toNat
  total : (members.map fun i => (w i).toNat).sum = W.toNat
  small : W.toNat < 2 ^ 30

omit [DecidableEq ι] in
theorem FwrrTotal.weight_le {st : ι → Standing} {w : ι → UInt32} {backup : Bool}
    {members : List ι} {W : UInt32} (h : FwrrTotal st w backup members W) {i : ι}
    (hi : i ∈ members) : (w i).toNat ≤ W.toNat := by
  rw [← h.total]
  exact List.single_le_sum (fun _ _ => Nat.zero_le _) _ (List.mem_map_of_mem hi)

/-- A usable server of the group whose weight does not change. -/
structure Server.Steady (s : Server) (backup : Bool) (w : UInt32) : Prop where
  backup : s.backup = backup
  usable : s.willbeUsable = true
  eweight : s.curEweight = w

/-- A server in the range `W` to `2 * W` that was drawn `k` times. -/
structure FwrrInRange (W e k : ℕ) (npos rweight : UInt32) : Prop where
  drawn : ∃ p, W ≤ p ∧ FwrrAt W e p k npos rweight
  lt : npos.toNat < 2 * W

/-- A round in which the servers of `l` have been returned so far, with the
servers of `out` in hand. -/
structure FwrrRound (st : ι → Standing) (w : ι → UInt32) (backup : Bool) (W : UInt32) (f : Fwrr ι)
    (l out : List ι) : Prop where
  linked : Linked st f out
  currWeight : (f.grp backup).currWeight = W
  nextWeight : (f.grp backup).nextWeight = W
  currPos : (f.grp backup).currPos.toNat = W.toNat + l.length
  mem : ∀ i ∈ l, (st i).map Prod.fst = some backup
  init : ∀ i ∈ ((f.grp backup).tree (f.grp backup).init).items, i ∉ l
  curr : ∀ i ∈ (f.grp backup).curr.items, i ∈ l ∧
    FwrrInRange W.toNat (w i).toNat (l.count i) (f.npos i) (f.rweight i)
  next : ∀ i ∈ ((f.grp backup).tree (f.grp backup).next).items, i ∈ l ∧ l.count i ≤ (w i).toNat

namespace FwrrRound

variable {st : ι → Standing} {w : ι → UInt32} {backup : Bool} {members : List ι} {W : UInt32}
  {f : Fwrr ι} {l : List ι}

theorem exists_tree (h : Linked st f []) {i : ι} (hi : (st i).map Prod.fst = some backup) :
    i ∈ ((f.grp backup).tree (f.grp backup).init).items ∨ i ∈ (f.grp backup).curr.items ∨
      i ∈ ((f.grp backup).tree (f.grp backup).next).items := by
  have hlb := (h.lbTree i List.not_mem_nil).trans hi
  obtain ⟨⟨b, t⟩, ht, hb⟩ := Option.map_eq_some_iff.mp hlb
  obtain rfl : b = backup := hb
  have hcount := h.count i b t
  rw [if_pos ⟨List.not_mem_nil, ht⟩] at hcount
  have hmem : i ∈ ((f.grp b).tree t).items := by
    rw [← List.count_pos_iff, hcount]
    exact Nat.one_pos
  rcases (h.slots b).trees.1 t with rfl | rfl | rfl
  · exact .inr (.inl hmem)
  · exact .inl hmem
  · exact .inr (.inr hmem)

/-- **No server exceeds its share.** -/
theorem count_le (h : FwrrRound st w backup W f l [])
    (htot : FwrrTotal st w backup members W) {i : ι} (hi : i ∈ members) :
    l.count i ≤ (w i).toNat := by
  rcases exists_tree h.linked (htot.mem.mp hi) with hinit | hcurr | hnext
  · rw [List.count_eq_zero.mpr (h.init i hinit)]
    exact Nat.zero_le _
  · obtain ⟨-, ⟨p, hp, hat⟩, hlt⟩ := h.curr i hcurr
    rw [hat.npos] at hlt
    exact Nat.le_of_lt (lt_weight_of_inRange (htot.pos i hi) hp hlt)
  · exact (h.next i hnext).2

theorem length_le (h : FwrrRound st w backup W f l []) (htot : FwrrTotal st w backup members W) :
    l.length ≤ W.toNat := by
  rw [length_eq_sum_count htot.nodup fun i hi => htot.mem.mpr (h.mem i hi), ← htot.total]
  apply List.sum_le_sum
  intro i hi
  exact h.count_le htot hi

/-- What drawing and consuming server `i` does to its group and to the others. -/
structure Consumed (backup : Bool) (i : ι) (f f' : Fwrr ι) : Prop where
  tree : ∀ {j t}, j ∈ ((f'.grp backup).tree t).items ↔ j ∈ ((f.grp backup).tree t).items ∧ j ≠ i
  init : (f'.grp backup).init = (f.grp backup).init
  next : (f'.grp backup).next = (f.grp backup).next
  currWeight : (f'.grp backup).currWeight = (f.grp backup).currWeight
  nextWeight : (f'.grp backup).nextWeight = (f.grp backup).nextWeight
  currPos : (f'.grp backup).currPos = (f.grp backup).currPos + 1
  others : ∀ j, j ≠ i → f'.npos j = f.npos j ∧ f'.rweight j = f.rweight j

theorem consumed {srv : ι → Server} {f₁ : Fwrr ι} {i : ι} (hp : OnlyPositions f f₁)
    (hothers : ∀ j, j ≠ i → f₁.npos j = f.npos j ∧ f₁.rweight j = f.rweight j) :
    Consumed backup i f (fwrrConsume srv f₁ backup i) := by
  have hpos := onlyPositions_updatePosition srv f₁ backup i
  have hgrp : (fwrrConsume srv f₁ backup i).grp backup =
      { ((fwrrDequeueSrv (fwrrUpdatePosition srv f₁ backup i) i).grp backup) with
        currPos := ((fwrrDequeueSrv (fwrrUpdatePosition srv f₁ backup i) i).grp backup).currPos +
          1 } := by
    unfold fwrrConsume
    rw [Fwrr.grp_updGrp, if_pos rfl]
  have hdeq (f' : Fwrr ι) : ((fwrrDequeueSrv f' i).grp backup).init = (f'.grp backup).init ∧
      ((fwrrDequeueSrv f' i).grp backup).next = (f'.grp backup).next ∧
      ((fwrrDequeueSrv f' i).grp backup).currWeight = (f'.grp backup).currWeight ∧
      ((fwrrDequeueSrv f' i).grp backup).nextWeight = (f'.grp backup).nextWeight ∧
      ((fwrrDequeueSrv f' i).grp backup).currPos = (f'.grp backup).currPos := by
    cases backup <;> exact ⟨rfl, rfl, rfl, rfl, rfl⟩
  obtain ⟨hinit, hnext, hcw, hnw, hcp⟩ := hdeq (fwrrUpdatePosition srv f₁ backup i)
  rw [hpos.grp, hp.grp] at hinit hnext hcw hnw hcp
  refine ⟨fun {j t} => ?_, ?_, ?_, ?_, ?_, ?_, fun j hj => ?_⟩
  · rw [mem_tree_consume, hp.grp]
  · rw [hgrp]
    exact hinit
  · rw [hgrp]
    exact hnext
  · rw [hgrp]
    exact hcw
  · rw [hgrp]
    exact hnw
  · rw [hgrp]
    exact congrArg (· + 1) hcp
  · obtain ⟨hn, hr⟩ : (fwrrUpdatePosition srv f₁ backup i).npos j = f₁.npos j ∧
        (fwrrUpdatePosition srv f₁ backup i).rweight j = f₁.rweight j :=
      positions_updatePosition hj
    have hnpos : (fwrrConsume srv f₁ backup i).npos = (fwrrUpdatePosition srv f₁ backup i).npos :=
      Fwrr.npos_updGrp ..
    have hrem : (fwrrConsume srv f₁ backup i).rweight =
        (fwrrUpdatePosition srv f₁ backup i).rweight := Fwrr.rweight_updGrp ..
    rw [hnpos, hrem, hn, hr]
    exact hothers j hj

theorem consume (h : FwrrRound st w backup W f l []) (htot : FwrrTotal st w backup members W)
    {f' : Fwrr ι} {i : ι} (hc : Consumed backup i f f') (hlinked : Linked st f' [i])
    (hi : (st i).map Prod.fst = some backup) : FwrrRound st w backup W f' (l ++ [i]) [i] := by
  have hcount {j : ι} (hj : j ≠ i) : (l ++ [i]).count j = l.count j := by
    rw [List.count_append, List.count_singleton, if_neg (by simpa using hj.symm), Nat.add_zero]
  refine ⟨hlinked, hc.currWeight.trans h.currWeight, hc.nextWeight.trans h.nextWeight, ?_,
    fun j hj => ?_, fun j hj => ?_, fun j hj => ?_, fun j hj => ?_⟩
  · have hlen := h.length_le htot
    have hsmall := htot.small
    rw [hc.currPos, UInt32.toNat_add, h.currPos, List.length_append]
    exact Nat.mod_eq_of_lt (show _ + 1 < 2 ^ 32 by omega)
  · rcases List.mem_append.mp hj with hj | hj
    · exact h.mem j hj
    · rw [List.mem_singleton.mp hj]
      exact hi
  · rw [hc.init, hc.tree] at hj
    rw [List.mem_append, List.mem_singleton]
    exact fun hor => hor.elim (h.init j hj.1) hj.2
  · have hj' : j ∈ ((f'.grp backup).tree .curr).items := hj
    rw [hc.tree] at hj'
    obtain ⟨hl, hrange⟩ := h.curr j hj'.1
    obtain ⟨hn, hr⟩ := hc.others j hj'.2
    rw [hcount hj'.2, hn, hr]
    exact ⟨List.mem_append_left _ hl, hrange⟩
  · rw [hc.next, hc.tree] at hj
    obtain ⟨hl, hle⟩ := h.next j hj.1
    rw [hcount hj.2]
    exact ⟨List.mem_append_left _ hl, hle⟩

theorem grp_insert (f : Fwrr ι) (backup : Bool) (t : FwrrTree) (key : UInt32) (i : ι) :
    (fwrrInsert f backup t key i).grp backup =
      (f.grp backup).setTree t (((f.grp backup).tree t).insert key i) := by
  show ((f.updGrp backup _).grp backup) = _
  rw [Fwrr.grp_updGrp, if_pos rfl]

theorem mem_tree_insert {t t' : FwrrTree} {key : UInt32} {i j : ι} :
    j ∈ (((fwrrInsert f backup t key i).grp backup).tree t').items ↔
      t' = t ∧ j = i ∨ j ∈ ((f.grp backup).tree t').items := by
  rw [grp_insert, FwrrGroup.tree_setTree]
  split_ifs with ht
  · subst ht
    rw [(EbTree.items_insert_perm _ key i).mem_iff, List.mem_cons, eq_self_iff_true, true_and]
  · exact (or_iff_right fun h => ht h.1).symm

theorem setNpos {i : ι} (h : FwrrRound st w backup W f l [i]) (npos : UInt32) :
    FwrrRound st w backup W { f with npos := Function.update f.npos i npos } l [i] := by
  refine ⟨h.linked.of_onlyPositions ⟨rfl, rfl, rfl⟩, h.currWeight, h.nextWeight, h.currPos, h.mem,
    h.init, fun j hj => ?_, h.next⟩
  have hj' : j ∈ ((f.grp backup).tree .curr).items := hj
  have hji : j ≠ i := by
    rintro rfl
    exact (h.linked.lbTree_of_mem hj').1 (List.mem_singleton_self j)
  show j ∈ l ∧ FwrrInRange _ _ _ (Function.update f.npos i npos j) (f.rweight j)
  rw [Function.update_of_ne hji]
  exact h.curr j hj

/-- The server in hand is linked again, in `curr` while it is in the range, else in `next`. -/
theorem insert {i : ι} {t : FwrrTree} (h : FwrrRound st w backup W f l [i])
    (hi : (st i).map Prod.fst = some backup) (hl : i ∈ l) (hinit : t ≠ (f.grp backup).init)
    (hcurr : t = .curr →
      FwrrInRange W.toNat (w i).toNat (l.count i) (f.npos i) (f.rweight i))
    (hnext : t = (f.grp backup).next → l.count i ≤ (w i).toNat) (key : UInt32) :
    FwrrRound st w backup W (fwrrInsert f backup t key i) l [] := by
  have hpos : (fwrrInsert f backup t key i).npos = f.npos := Fwrr.npos_updGrp ..
  have hrem : (fwrrInsert f backup t key i).rweight = f.rweight := Fwrr.rweight_updGrp ..
  have hnumbers (g : FwrrGroup ι) (e : EbTree UInt32 ι) :
      (g.setTree t e).currWeight = g.currWeight ∧ (g.setTree t e).currPos = g.currPos := by
    cases t <;> exact ⟨rfl, rfl⟩
  have hinit' : ((fwrrInsert f backup t key i).grp backup).init = (f.grp backup).init := by
    rw [grp_insert, FwrrGroup.setTree_init]
  have hnext' : ((fwrrInsert f backup t key i).grp backup).next = (f.grp backup).next := by
    rw [grp_insert, FwrrGroup.setTree_next]
  refine ⟨h.linked.insert List.not_mem_nil hi t key, ?_, ?_, ?_, h.mem, fun j hj => ?_,
    fun j hj => ?_, fun j hj => ?_⟩
  · rw [grp_insert, (hnumbers _ _).1]
    exact h.currWeight
  · rw [grp_insert, FwrrGroup.nextWeight_setTree]
    exact h.nextWeight
  · rw [grp_insert, (hnumbers _ _).2]
    exact h.currPos
  · rw [hinit', mem_tree_insert] at hj
    exact h.init j (hj.resolve_left fun ht => hinit ht.1.symm)
  · have hj' : j ∈ (((fwrrInsert f backup t key i).grp backup).tree .curr).items := hj
    rw [hpos, hrem]
    rcases mem_tree_insert.mp hj' with ⟨ht, rfl⟩ | hj'
    · exact ⟨hl, hcurr ht.symm⟩
    · exact h.curr j hj'
  · rw [hnext'] at hj
    rcases mem_tree_insert.mp hj with ⟨ht, rfl⟩ | hj
    · exact ⟨hl, hnext ht.symm⟩
    · exact h.next j hj

/-- The server that is found in a round, with its position for the draw. -/
theorem found (h : FwrrRound st w backup W f l []) (htot : FwrrTotal st w backup members W)
    {srv : ι → Server} {f₁ : Fwrr ι} {i : ι}
    (hget : fwrrGetServerFromGroup srv f backup = (f₁, some i)) :
    (st i).map Prod.fst = some backup ∧ OnlyPositions f f₁ ∧
      (∀ j, j ≠ i → f₁.npos j = f.npos j ∧ f₁.rweight j = f.rweight j) ∧
      ∃ p lpos, W.toNat ≤ p ∧ lpos = (if f₁.npos i = 0 then (f.grp backup).currPos else f₁.npos i) ∧
        FwrrAt W.toNat (w i).toNat p (l.count i) lpos (f₁.rweight i) ∧
        lpos.toNat ≤ 2 * W.toNat ∧ l.count i < (w i).toNat := by
  rcases getServerFromGroup_some hget with ⟨rfl, hcurr⟩ | ⟨rfl, hinit⟩
  · -- its position is not 0, as it is in the range
    have hmem : i ∈ ((f₁.grp backup).tree .curr).items := hcurr
    have hst := h.linked.standing_of_mem hmem
    have hw := htot.pos i (htot.mem.mpr hst)
    obtain ⟨-, ⟨p, hp, hat⟩, hlt⟩ := h.curr i hcurr
    have hne : f₁.npos i ≠ 0 := by
      intro hzero
      have hle := htot.weight_le (htot.mem.mpr hst)
      have hge : p ≤ (f₁.npos i).toNat := by
        rw [hat.npos]
        exact Nat.le_add_right _ _
      rw [hzero, show UInt32.toNat 0 = 0 from rfl] at hge
      omega
    refine ⟨hst, ⟨rfl, rfl, rfl⟩, fun _ _ => ⟨rfl, rfl⟩, p, f₁.npos i, hp, (if_neg hne).symm, hat,
      Nat.le_of_lt hlt, ?_⟩
    rw [hat.npos] at hlt
    exact lt_weight_of_inRange hw hp hlt
  · -- it starts at the current position
    have hst := h.linked.standing_of_mem hinit
    have hzero : (fwrrGetSrvInit f i).npos i = 0 := Function.update_self ..
    have hrem : (fwrrGetSrvInit f i).rweight i = 0 := Function.update_self ..
    have hcount : l.count i = 0 := List.count_eq_zero.mpr (h.init i hinit)
    have hlen := h.length_le htot
    refine ⟨hst, ⟨rfl, rfl, rfl⟩,
      fun j hj => ⟨Function.update_of_ne hj .., Function.update_of_ne hj ..⟩,
      (f.grp backup).currPos.toNat, (f.grp backup).currPos, ?_, (if_pos hzero).symm, ⟨?_, ?_⟩, ?_,
      ?_⟩
    · rw [h.currPos]
      exact Nat.le_add_right _ _
    · rw [hcount, Nat.zero_mul, Nat.zero_div, Nat.add_zero]
    · rw [hrem, hcount, Nat.zero_mul, Nat.zero_mod]
      rfl
    · rw [h.currPos]
      omega
    · rw [hcount]
      exact htot.pos i (htot.mem.mpr hst)

/-- **One turn of a round.**  The server that is found is returned, and queued
in `curr` or in `next`. -/
theorem turn (h : FwrrRound st w backup W f l []) (htot : FwrrTotal st w backup members W)
    {srv : ι → Server} {f₁ : Fwrr ι} {i : ι}
    (hsrv : ∀ i, (st i).map Prod.fst = some backup → (srv i).Steady backup (w i))
    (hget : fwrrGetServerFromGroup srv f backup = (f₁, some i)) :
    FwrrRound st w backup W (fwrrQueueSrv srv (fwrrConsume srv f₁ backup i) i) (l ++ [i]) [] := by
  obtain ⟨hst, hpos, hothers, p, lpos, hp, hlpos, hat, hle, hlt⟩ := h.found htot hget
  obtain ⟨hb, husable, hcur⟩ := hsrv i hst
  have hmember := htot.mem.mpr hst
  have hweight := htot.pos i hmember
  have hwW := htot.weight_le hmember
  have hsmall := htot.small
  have hc : Consumed backup i f (fwrrConsume srv f₁ backup i) := consumed hpos hothers
  have hlinked : Linked st (fwrrConsume srv f₁ backup i) [i] :=
    (h.linked.of_onlyPositions hpos).consume srv backup i
  have hround := h.consume htot hc hlinked hst
  have hcount : (l ++ [i]).count i = l.count i + 1 := by
    rw [List.count_append, List.count_singleton_self]
  -- the position after the draw
  have hne : (srv i).curEweight ≠ 0 := by
    rw [hcur]
    rintro hzero
    rw [hzero] at hweight
    exact Nat.lt_irrefl _ hweight
  have hat' : FwrrAt W.toNat (w i).toNat p ((l ++ [i]).count i)
      ((fwrrConsume srv f₁ backup i).npos i) ((fwrrConsume srv f₁ backup i).rweight i) := by
    have hn : (fwrrConsume srv f₁ backup i).npos = (fwrrUpdatePosition srv f₁ backup i).npos :=
      Fwrr.npos_updGrp ..
    have hr : (fwrrConsume srv f₁ backup i).rweight =
        (fwrrUpdatePosition srv f₁ backup i).rweight := Fwrr.rweight_updGrp ..
    have hgrp : (f₁.grp backup).nextWeight = W := by
      rw [hpos.grp]
      exact h.nextWeight
    rw [← hpos.grp] at hlpos
    rw [hcount, hn, hr, npos_updatePosition hne hlpos, rweight_updatePosition hne, hgrp, hcur]
    exact hat.step hweight hwW hsmall hle
  generalize fwrrConsume srv f₁ backup i = f₂ at *
  have hl : i ∈ l ++ [i] := List.mem_append_right _ (List.mem_singleton_self i)
  have hle' : (l ++ [i]).count i ≤ (w i).toNat := by
    rw [hcount]
    exact hlt
  have hslots := (hround.linked.slots backup).trees
  -- both comparisons of `fwrr_queue_srv` are with twice the length of the range
  have hdouble : (2 * W).toNat = 2 * W.toNat ∧ (W + W).toNat = 2 * W.toNat := by
    rw [UInt32.toNat_mul, UInt32.toNat_add, show UInt32.toNat 2 = 2 from rfl]
    omega
  unfold fwrrQueueSrv
  dsimp only
  rw [husable, hb, hround.currWeight, hround.nextWeight]
  simp only [Bool.not_true, Bool.false_eq_true, if_false]
  split_ifs with hout
  · -- out of the range
    apply (hround.setNpos _).insert hst hl hslots.2.2.2.symm
    · exact fun he => absurd he hslots.2.2.1
    · exact fun _ => hle'
  · rw [not_or, not_or] at hout
    have hin : (f₂.npos i).toNat < 2 * W.toNat := by
      rw [← hdouble.1, ← UInt32.lt_iff_toNat_lt]
      exact UInt32.not_le.mp hout.2.1
    apply hround.insert hst hl hslots.2.1.symm
    · exact fun _ => ⟨⟨p, hp, hat'⟩, hin⟩
    · exact fun _ => hle'

/-- **A round starts when the trees are switched.** -/
theorem start (h : Linked st f []) (hnext : (f.grp backup).nextWeight = W)
    (hinit : ((f.grp backup).tree (f.grp backup).init).items = [])
    (hcurr : (f.grp backup).curr.items = []) :
    FwrrRound st w backup W (fwrrSwitchTrees f backup) [] [] := by
  have hgrp : (fwrrSwitchTrees f backup).grp backup =
      { f.grp backup with
        init := (f.grp backup).next
        next := (f.grp backup).init
        currWeight := (f.grp backup).nextWeight
        currPos := (f.grp backup).nextWeight } := by
    unfold fwrrSwitchTrees
    rw [Fwrr.grp_updGrp, if_pos rfl]
  have htree (t : FwrrTree) : ((fwrrSwitchTrees f backup).grp backup).tree t =
      (f.grp backup).tree t := (sameTrees_switchTrees f backup).tree backup t
  refine ⟨h.of_sameTrees (sameTrees_switchTrees f backup), ?_, ?_, ?_, ?_, ?_, ?_, ?_⟩
  · rw [hgrp]
    exact hnext
  · rw [hgrp]
    exact hnext
  · rw [hgrp]
    exact congrArg UInt32.toNat hnext
  · exact fun i hi => absurd hi List.not_mem_nil
  · exact fun i _ => List.not_mem_nil
  · intro i hi
    have hi' : i ∈ (((fwrrSwitchTrees f backup).grp backup).tree .curr).items := hi
    rw [htree] at hi'
    have hcurr' : ((f.grp backup).tree .curr).items = [] := hcurr
    rw [hcurr'] at hi'
    exact absurd hi' List.not_mem_nil
  · intro i hi
    have hnext' : ((fwrrSwitchTrees f backup).grp backup).next = (f.grp backup).init := by
      rw [hgrp]
    rw [htree, hnext', hinit] at hi
    exact absurd hi List.not_mem_nil

/-- **A round is over when all servers of the group have been returned.** -/
theorem count_pos (h : FwrrRound st w backup W f l [])
    (hinit : ((f.grp backup).tree (f.grp backup).init).items = [])
    (hcurr : (f.grp backup).curr.items = []) {i : ι}
    (hi : (st i).map Prod.fst = some backup) : 1 ≤ l.count i := by
  rw [Nat.one_le_iff_ne_zero, ← Nat.pos_iff_ne_zero, List.count_pos_iff]
  rcases exists_tree h.linked hi with hmem | hmem | hmem
  · rw [hinit] at hmem
    exact absurd hmem List.not_mem_nil
  · rw [hcurr] at hmem
    exact absurd hmem List.not_mem_nil
  · exact (h.next i hmem).1

end FwrrRound

end SmartHAProxy
