/-
Inherited marks on a forest.

Every node of a forest has a value, from which two marks are read: its own
mark, and the one it has inherited.  The values are consistent if each node
has inherited the own mark of its parent.

When the own mark of a node changes, its children have to be told, and theirs
if their own marks change in turn.  `spread` tells one node and goes down only
as far as something changes.  It does not look at the whole tree, so that it
is right only because everything below was consistent before
(`consistent_write`).
-/
import Mathlib.Data.Fintype.Order

namespace SmartHAProxy

/-- A forest, given by its links in both directions. -/
structure Forest (ι : Type*) where
  parent : ι → Option ι
  children : ι → List ι
  mem_children : ∀ i j, j ∈ children i ↔ parent j = some i
  acyclic : ∀ i, ¬Relation.TransGen (fun j k => parent j = some k) i i

/-- An own and an inherited mark of a value, and how the inherited mark is
changed.  This changes the own mark, if at all, in the same direction. -/
structure Mark (α : Type*) where
  own : α → Bool
  inh : α → Bool
  put : Bool → α → α
  inh_put : ∀ v a, inh (put v a) = v
  own_put : ∀ v a, own (put v a) = own a ∨ own (put v a) = v

variable {ι α : Type*}

namespace Forest

theorem wf [Finite ι] (t : Forest ι) : WellFounded fun j i => t.parent j = some i := by
  have hirrefl : Std.Irrefl (Relation.TransGen fun j i => t.parent j = some i) := ⟨t.acyclic⟩
  have htrans := Finite.wellFounded_of_trans_of_irrefl
    (Relation.TransGen fun j i => t.parent j = some i)
  refine Subrelation.wf ?_ htrans
  exact fun h => Relation.TransGen.single h

/-- Each node has inherited the own mark of its parent. -/
def Consistent (t : Forest ι) (m : Mark α) (s : ι → α) : Prop :=
  ∀ j i, t.parent j = some i → m.inh (s j) = m.own (s i)

variable [DecidableEq ι]

/-- Node `j` is told that the own mark of its parent is `v`. -/
def spread [Finite ι] (t : Forest ι) (m : Mark α) (v : Bool) (s : ι → α) (j : ι) : ι → α :=
  if m.inh (s j) = v then s
  else
    let s' := Function.update s j (m.put v (s j))
    if m.own (s' j) = m.own (s j) then s'
    else (t.children j).foldl (fun s k => spread t m v s k) s'
termination_by t.wf.wrap j
decreasing_by exact (t.mem_children j _).mp ‹_›

/-- The value of node `i` is replaced, and its children are told. -/
def write [Finite ι] (t : Forest ι) (m : Mark α) (s : ι → α) (i : ι) (a : α) : ι → α :=
  let s' := Function.update s i a
  if m.own a = m.own (s i) then s'
  else (t.children i).foldl (fun s k => t.spread m (m.own a) s k) s'

variable [Finite ι] {t : Forest ι} {m : Mark α} {v : Bool} {s : ι → α} {B : Set ι} {i j : ι}

theorem spread_eq (t : Forest ι) (m : Mark α) (v : Bool) (s : ι → α) (j : ι) :
    t.spread m v s j
      = if m.inh (s j) = v then s
        else if m.own (m.put v (s j)) = m.own (s j) then Function.update s j (m.put v (s j))
        else (t.children j).foldl (fun s k => t.spread m v s k)
          (Function.update s j (m.put v (s j))) := by
  rw [spread]
  simp only [Function.update_self]

/-! ### What spreading does not change -/

theorem spread_frame {β : Type*} (g : α → β) (hg : ∀ v a, g (m.put v a) = g a) (v : Bool)
    (s : ι → α) (j i : ι) : g (t.spread m v s j i) = g (s i) := by
  induction j using t.wf.induction generalizing s with
  | _ j ih =>
    have hput : g (Function.update s j (m.put v (s j)) i) = g (s i) := by
      by_cases hij : i = j
      · subst hij
        rw [Function.update_self, hg]
      · rw [Function.update_of_ne hij]
    rw [spread_eq]
    split_ifs
    · rfl
    · exact hput
    · refine List.foldlRecOn (t.children j) _ (motive := fun s' : ι → α => g (s' i) = g (s i)) hput ?_
      intro s' hs' k hk
      rw [ih k ((t.mem_children j k).mp hk), hs']

theorem own_spread (h : m.own (s i) = v) : m.own (t.spread m v s j i) = v := by
  induction j using t.wf.induction generalizing s with
  | _ j ih =>
    have hput : m.own (Function.update s j (m.put v (s j)) i) = v := by
      by_cases hij : i = j
      · subst hij
        rw [Function.update_self]
        rcases m.own_put v (s i) with ho | ho
        · rw [ho, h]
        · exact ho
      · rw [Function.update_of_ne hij, h]
    rw [spread_eq]
    split_ifs
    · exact h
    · exact hput
    · refine List.foldlRecOn (t.children j) _ (motive := fun s' : ι → α => m.own (s' i) = v) hput ?_
      intro s' hs' k hk
      exact ih k ((t.mem_children j k).mp hk) hs'

theorem spread_eq_write (t : Forest ι) (m : Mark α) (v : Bool) (s : ι → α) (j : ι) :
    t.spread m v s j = if m.inh (s j) = v then s else t.write m s j (m.put v (s j)) := by
  rw [spread_eq, write]
  split_ifs with _ hsame
  · rfl
  · rfl
  · rw [(m.own_put v (s j)).resolve_left hsame]

theorem write_frame {β : Type*} (g : α → β) (hg : ∀ v a, g (m.put v a) = g a) {a : α}
    (ha : g a = g (s i)) (j : ι) : g (t.write m s i a j) = g (s j) := by
  have hupd : g (Function.update s i a j) = g (s j) := by
    by_cases hji : j = i
    · subst hji
      rw [Function.update_self, ha]
    · rw [Function.update_of_ne hji]
  unfold write
  split_ifs
  · exact hupd
  · refine List.foldlRecOn (t.children i) _ (motive := fun s' : ι → α => g (s' j) = g (s j)) hupd ?_
    intro s' hs' k _
    rw [spread_frame g hg, hs']

/-! ### Consistency -/

/-- The nodes of `B` may have missed a change of their parents. -/
def ConsistentOff (t : Forest ι) (m : Mark α) (B : Set ι) (s : ι → α) : Prop :=
  ∀ j i, t.parent j = some i → j ∉ B → m.inh (s j) = m.own (s i)

theorem ConsistentOff.foldl_spread {l : List ι} (h : t.ConsistentOff m B s)
    (hl : ∀ k ∈ l, t.parent k = some i) (hv : m.own (s i) = v)
    (hspread : ∀ k ∈ l, ∀ (s : ι → α) (B : Set ι), t.ConsistentOff m B s →
      (∀ i, t.parent k = some i → m.own (s i) = v) →
      t.ConsistentOff m (B \ {k}) (t.spread m v s k)) :
    t.ConsistentOff m {k | k ∈ B ∧ k ∉ l} (l.foldl (fun s k => t.spread m v s k) s) := by
  induction l generalizing s B with
  | nil => simpa using h
  | cons k l ih =>
    have hk := hspread k List.mem_cons_self s B h fun i' hi' => by
      obtain rfl := Option.some.inj ((hl k List.mem_cons_self).symm.trans hi')
      exact hv
    have hrest := ih hk (fun k hk => hl k (List.mem_cons_of_mem _ hk)) (own_spread hv)
      fun k hk => hspread k (List.mem_cons_of_mem _ hk)
    intro j i hj hB
    refine hrest j i hj fun hmem => hB ?_
    exact ⟨hmem.1.1, List.not_mem_cons_of_ne_of_not_mem hmem.1.2 hmem.2⟩

omit [Finite ι] in
theorem ConsistentOff.update (h : t.ConsistentOff m B s) (a : α) :
    t.ConsistentOff m ({i} ∪ {k | k ∈ B ∨ (k ∈ t.children i ∧ m.own a ≠ m.own (s i))})
      (Function.update s i a) := by
  intro j k hj hB
  simp only [Set.mem_union, Set.mem_singleton_iff, Set.mem_ofPred_eq, not_or, not_and,
    not_not] at hB
  obtain ⟨hji, hjB, hown⟩ := hB
  rw [Function.update_of_ne hji]
  by_cases hki : k = i
  · subst hki
    rw [Function.update_self, hown ((t.mem_children k j).mpr hj)]
    exact h j k hj hjB
  · rw [Function.update_of_ne hki]
    exact h j k hj hjB

/-- Telling a node repairs its own link. -/
theorem ConsistentOff.spread (h : t.ConsistentOff m B s)
    (hv : ∀ i, t.parent j = some i → m.own (s i) = v) :
    t.ConsistentOff m (B \ {j}) (t.spread m v s j) := by
  induction j using t.wf.induction generalizing s B with
  | _ j ih =>
    have hown {i : ι} (hi : t.parent j = some i) :
        m.own (Function.update s j (m.put v (s j)) i) = v := by
      by_cases hij : i = j
      · exact absurd (Relation.TransGen.single (hij ▸ hi)) (t.acyclic j)
      · rw [Function.update_of_ne hij]
        exact hv i hi
    have hself {i : ι} (hi : t.parent j = some i) :
        m.inh (Function.update s j (m.put v (s j)) j)
          = m.own (Function.update s j (m.put v (s j)) i) := by
      rw [Function.update_self, m.inh_put, hown hi]
    have hupd := h.update (i := j) (m.put v (s j))
    rw [spread_eq]
    split_ifs with hinh hsame
    · -- nothing changes: the link was right already
      intro k i hk hB
      by_cases hkj : k = j
      · subst hkj
        rw [hinh, hv i hk]
      · exact h k i hk fun hkB => hB ⟨hkB, hkj⟩
    · intro k i hk hB
      by_cases hkj : k = j
      · subst hkj
        exact hself hk
      · refine hupd k i hk ?_
        simp only [Set.mem_sdiff, Set.mem_singleton_iff, hkj, not_false_eq_true, and_true] at hB
        simp [hkj, hB, hsame]
    · -- the own mark of the node changed, so its children are told in turn
      have hv' : m.own (m.put v (s j)) = v := (m.own_put v (s j)).resolve_left hsame
      have hB : t.ConsistentOff m ((B \ {j}) ∪ {k | k ∈ t.children j})
          (Function.update s j (m.put v (s j))) := by
        intro k i hk hB
        by_cases hkj : k = j
        · subst hkj
          exact hself hk
        · refine hupd k i hk ?_
          simp only [Set.mem_union, Set.mem_sdiff, Set.mem_singleton_iff, hkj, not_false_eq_true,
            and_true, Set.mem_ofPred_eq, not_or] at hB
          simp [hkj, hB]
      have hfold := hB.foldl_spread (i := j) (l := t.children j)
        (fun k hk => (t.mem_children j k).mp hk) (by rw [Function.update_self, hv'])
        fun k hk s B hs hv => ih k ((t.mem_children j k).mp hk) hs hv
      intro k i hk hB
      refine hfold k i hk fun hmem => hB ?_
      exact hmem.1.resolve_right hmem.2

/-- **Incremental inheritance**: replacing a value and telling the children whose
parent's mark changed keeps all nodes consistent. -/
theorem consistent_write (h : t.Consistent m s) {a : α} (ha : m.inh a = m.inh (s i)) :
    t.Consistent m (t.write m s i a) := by
  have hoff : t.ConsistentOff m {k | k ∈ t.children i ∧ m.own a ≠ m.own (s i)}
      (Function.update s i a) := by
    intro j k hj hB
    by_cases hji : j = i
    · subst hji
      have hkj : k ≠ j := fun hkj => t.acyclic j (Relation.TransGen.single (hkj ▸ hj))
      rw [Function.update_self, Function.update_of_ne hkj, ha]
      exact h j k hj
    · have hs : t.ConsistentOff m ∅ s := fun j i hj _ => h j i hj
      refine hs.update (i := i) a j k hj ?_
      simpa [hji] using hB
  unfold write
  split_ifs with hsame
  · intro j k hj
    exact hoff j k hj fun hmem => hmem.2 hsame
  · have hfold := hoff.foldl_spread (i := i) (l := t.children i)
      (fun k hk => (t.mem_children i k).mp hk) (by rw [Function.update_self])
      fun k _ s B hs hv => hs.spread hv
    intro j k hj
    exact hfold j k hj fun hmem => hmem.2 hmem.1.1

end Forest

end SmartHAProxy
