/-
The order in which round robin comes to the servers.

Whether a server is accepted has no influence on which server would be drawn
after it.  The state of a group therefore determines the sequence in which
`fwrr_get_next_server` draws (`fwrrOrder`), and the function is a plain search
of this sequence (`fwrrGetNextServer_eq`).  A server is drawn at most once,
since it leaves all trees when it is drawn.
-/
import SmartHAProxy.Lb.FwrrNext

namespace SmartHAProxy

variable {ι : Type*} [DecidableEq ι]

/-- The servers that the outer loop draws as long as it accepts none. -/
def fwrrDraws (srv : ι → Server) (backup : Bool) : ℕ → Fwrr ι → Bool → List ι
  | 0, _, _ => []
  | fuel + 1, f, switched =>
    match fwrrDraw srv (fwrrCollectWeights f backup) backup switched with
    | (_, _, none) => []
    | (f, switched, some i) =>
      i :: fwrrDraws srv backup fuel (fwrrConsume srv f backup i) switched

/-- The order in which a group comes to its servers. -/
def fwrrOrder (srv : ι → Server) (f : Fwrr ι) (backup : Bool) : List ι :=
  fwrrDraws srv backup ((f.grp backup).size + 1) f false

variable {srv : ι → Server} {c : Criteria ι} {backup : Bool}

theorem mem_tree_consume {f : Fwrr ι} {i j : ι} {t : FwrrTree} :
    j ∈ (((fwrrConsume srv f backup i).grp backup).tree t).items
      ↔ j ∈ ((f.grp backup).tree t).items ∧ j ≠ i := by
  have hpos := (onlyPositions_updatePosition srv f backup i).sameTrees
  have htree : ((fwrrConsume srv f backup i).grp backup).tree t
      = (((fwrrUpdatePosition srv f backup i).grp backup).tree t).delete i := by
    rw [← tree_dequeueSrv]
    exact (sameTrees_currPos _ backup fun g => g.currPos + 1).tree backup t
  rw [htree, EbTree.items_delete, hpos.tree, List.mem_filter]
  simp

/-- **The outer loop is a search of the draws.**  It ends, and at most one server
being avoided, the second chance that the code gives to a server after one was
avoided is never needed. -/
theorem fwrrSearch_eq_search (hc : ∀ i j, c.avoid i = true → c.avoid j = true → i = j)
    (fuel : ℕ) {s : FwrrSearch ι}
    (ha : ∀ i, s.avoided = some i →
      c.avoid i = true ∧ ∀ t, i ∉ ((s.fwrr.grp backup).tree t).items)
    (hfuel : (s.fwrr.grp backup).size < fuel) :
    ∃ s', fwrrSearch srv c backup fuel s
      = some (s', c.search s.avoided (fwrrDraws srv backup fuel s.fwrr s.switched)) := by
  induction fuel generalizing s with
  | zero => exact absurd hfuel (Nat.not_lt_zero _)
  | succ fuel ih =>
    have hcollect := sameTrees_collectWeights s.fwrr backup
    obtain ⟨hdraw, hmem⟩ :=
      draw_spec srv (fwrrCollectWeights s.fwrr backup) backup s.switched
    have hsame := hcollect.trans hdraw
    rcases he : fwrrDraw srv (fwrrCollectWeights s.fwrr backup) backup s.switched with
      ⟨f, switched, - | i⟩
    · simp only [fwrrSearch, fwrrDraws, he, Criteria.search]
      exact ⟨_, rfl⟩
    · rw [he] at hsame hmem
      obtain ⟨t, ht⟩ := hmem i rfl
      rw [hcollect.tree] at ht
      have hsize := size_consume srv backup (f := f) (i := i) (t := t) (by rwa [hsame.tree])
      rw [hsame.size] at hsize
      have hgone : ∀ j t, j ∈ (((fwrrConsume srv f backup i).grp backup).tree t).items
          → j ∈ ((s.fwrr.grp backup).tree t).items ∧ j ≠ i := by
        intro j t hj
        rw [mem_tree_consume, hsame.tree] at hj
        exact hj
      -- a server that was avoided before is not in the trees, so it is not this one
      have hfirst : c.avoid i = true → s.avoided.isSome = false := by
        intro hi
        rcases hav : s.avoided with - | j
        · rfl
        · obtain ⟨hj, hout⟩ := ha j hav
          rw [hc j i hj hi] at hout
          exact absurd ht (hout t)
      simp only [fwrrSearch, fwrrDraws, he, Criteria.search]
      rcases hfree : c.free i with - | -
      · simp only [Bool.false_eq_true, false_and, if_false]
        refine ih (fun j hj => ⟨(ha j hj).1, fun t hjt => ?_⟩) (by
          show ((fwrrConsume srv f backup i).grp backup).size < fuel
          omega)
        exact (ha j hj).2 t (hgone j t hjt).1
      · rcases havoid : c.avoid i with - | -
        · simp
        · simp only [hfirst havoid, not_true_eq_false, Bool.false_eq_true, or_self, and_false,
            if_false, if_true, Bool.not_true]
          refine ih (fun j hj => ?_) (by
            show ((fwrrConsume srv f backup i).grp backup).size < fuel
            omega)
          obtain rfl := Option.some.inj hj
          exact ⟨havoid, fun t hit => (hgone i t hit).2 rfl⟩

theorem fwrrGetNextServer_eq (now : ℤ) {b : Backend ι (Fwrr ι)} {servers : CStr}
    (srvtoavoid : Option ι) (h0 : strchr servers '0'.toUInt8 = false)
    (hg : b.px.groupInUse = some backup) :
    ∃ b', fwrrGetNextServer now b srvtoavoid servers
      = some (b', (fwrrCriteria now b srvtoavoid servers).search none
          (fwrrOrder b.srv b.px.lb backup)) := by
  have hone : ∀ i j, (fwrrCriteria now b srvtoavoid servers).avoid i = true →
      (fwrrCriteria now b srvtoavoid servers).avoid j = true → i = j := by
    intro i j hi hj
    simp only [fwrrCriteria, Bool.and_eq_true, decide_eq_true_eq] at hi hj
    exact Option.some.inj (hi.1.trans hj.1.symm)
  have hpick : ∃ f, fwrrPick b.srv (fwrrCriteria now b srvtoavoid servers) backup b.px.lb
      = some (f, (fwrrCriteria now b srvtoavoid servers).search none
          (fwrrOrder b.srv b.px.lb backup)) := by
    have hend : ∃ s', fwrrSearch b.srv (fwrrCriteria now b srvtoavoid servers) backup
        ((b.px.lb.grp backup).size + 1) ⟨b.px.lb, false, [], none⟩
        = some (s', (fwrrCriteria now b srvtoavoid servers).search none
            (fwrrOrder b.srv b.px.lb backup)) :=
      fwrrSearch_eq_search hone _ (by simp) (Nat.lt_succ_self _)
    obtain ⟨s', hs'⟩ := hend
    rw [fwrrPick, hs']
    exact ⟨_, rfl⟩
  obtain ⟨f, hf⟩ := hpick
  have h0' : ¬ strchr servers '0'.toUInt8 = true := by simp [h0]
  simp only [fwrrGetNextServer, if_neg h0']
  simp only [Proxy.groupInUse] at hg
  split_ifs at hg with hact hfbck hbck
  · obtain rfl := Option.some.inj hg
    rw [if_pos hact, hf]
    exact ⟨_, rfl⟩
  · obtain rfl := Option.some.inj hg
    rw [if_neg hact, if_neg hfbck, if_pos hbck, hf]
    exact ⟨_, rfl⟩

end SmartHAProxy
