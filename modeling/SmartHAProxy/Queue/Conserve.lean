/-
Conservation of pending connections.

Two things are kept apart.  `Links` is about the trees: a pendconn is linked
exactly where its node says, once, and never after a server has picked it.
`Tallied` is about the counters.  Some functions leave it to their caller or
to their own end to correct a counter, so `Tallied debt owed` allows each
queue's `length` to be too large by `debt` and `totpend` by `owed`; every
function pays its debts before it returns.
-/
import SmartHAProxy.Queue.Pendconn
import Mathlib.Algebra.BigOperators.Option
import Mathlib.Algebra.BigOperators.Group.Finset.Piecewise
import Mathlib.Data.Fintype.Option
import Mathlib.Tactic.Ring

namespace SmartHAProxy

variable {σ ι L : Type*}
variable {st' : Queues σ ι L}

/-! ### Where pendconns are linked -/

/-- A pendconn is linked where its node says and not twice; the ones that were
handed to a server are linked nowhere, and their targets are those servers. -/
structure Links (st : Queues σ ι L) : Prop where
  mem_iff : ∀ p q, p ∈ (st.queue q).head.items ↔
    ∃ pc, st.pendconn p = some pc ∧ pc.leafP = some q
  nodup : ∀ q, (st.queue q).head.items.Nodup
  queue : ∀ p pc q, st.pendconn p = some pc → pc.leafP = some q → pc.queue = q
  waiting : ∀ p pc, st.pendconn p = some pc → pc.leafP.isSome → p ∉ st.handed.map Prod.fst
  target : ∀ p pc s, st.pendconn p = some pc → (pc.target = some s ↔ (p, s) ∈ st.handed)
  handed : (st.handed.map Prod.fst).Nodup
  fresh : ∀ p, st.allocated ≤ p → st.pendconn p = none ∧ p ∉ st.handed.map Prod.fst
  owner : ∀ s p, (st.strm s).pendPos = some p → ∃ pc, st.pendconn p = some pc ∧ pc.strm = s

namespace Links

variable {st : Queues σ ι L} {p : ℕ} {pc : Pendconn σ ι} {q : Option ι}

theorem other (h : Links st) (hqueue : ∀ q, (st'.queue q).head = (st.queue q).head)
    (hpendconn : st'.pendconn = st.pendconn) (hhanded : st'.handed = st.handed)
    (hallocated : st'.allocated = st.allocated)
    (hpos : ∀ s, (st'.strm s).pendPos = (st.strm s).pendPos) : Links st' where
  mem_iff p q := by rw [hqueue, hpendconn, h.mem_iff]
  nodup q := by rw [hqueue]; exact h.nodup q
  queue := by rw [hpendconn]; exact h.queue
  waiting := by rw [hpendconn, hhanded]; exact h.waiting
  target := by rw [hpendconn, hhanded]; exact h.target
  handed := by rw [hhanded]; exact h.handed
  fresh := by rw [hallocated, hpendconn, hhanded]; exact h.fresh
  owner s p hs := by
    rw [hpos] at hs
    rw [hpendconn]
    exact h.owner s p hs

theorem updStrm [DecidableEq σ] (h : Links st) {s : σ} {f : Strm ι → Strm ι}
    (hf : (f (st.strm s)).pendPos = (st.strm s).pendPos) : Links (st.updStrm s f) := by
  refine h.other (fun _ => rfl) rfl rfl rfl fun s' => ?_
  by_cases hs : s' = s
  · subst hs
    simp [Queues.updStrm, hf]
  · simp [Queues.updStrm, hs]

theorem updQueue [DecidableEq ι] (h : Links st) {f : Queue → Queue}
    (hf : (f (st.queue q)).head = (st.queue q).head) : Links (st.updQueue q f) := by
  refine h.other (fun q' => ?_) rfl rfl rfl fun _ => rfl
  by_cases hq : q' = q
  · subst hq
    simp [Queues.updQueue, hf]
  · simp [Queues.updQueue, hq]

theorem lt_allocated (h : Links st) (hp : st.pendconn p = some pc) : p < st.allocated := by
  by_contra hlt
  have hnone := (h.fresh p (not_lt.mp hlt)).1
  simp [hp] at hnone

theorem mem_of_linked (h : Links st) (hp : st.pendconn p = some pc) (hl : pc.leafP = some q) :
    p ∈ (st.queue q).head.items :=
  (h.mem_iff p q).mpr ⟨pc, hp, hl⟩

/-- **One pendconn changes**, from whatever it was to `x`, and everything about
the others stays as it is. -/
theorem change (h : Links st) {x : Option (Pendconn σ ι)}
    (hpendconn : st'.pendconn = Function.update st.pendconn p x)
    (hmem : ∀ p' q, p' ≠ p → (p' ∈ (st'.queue q).head.items ↔ p' ∈ (st.queue q).head.items))
    (hself : ∀ q, p ∈ (st'.queue q).head.items ↔ ∃ pc, x = some pc ∧ pc.leafP = some q)
    (hnodup : ∀ q, (st'.queue q).head.items.Nodup)
    (hqueue : ∀ pc q, x = some pc → pc.leafP = some q → pc.queue = q)
    (hwaiting : ∀ pc, x = some pc → pc.leafP.isSome → p ∉ st'.handed.map Prod.fst)
    (htarget : ∀ pc s, x = some pc → (pc.target = some s ↔ (p, s) ∈ st'.handed))
    (hhanded : ∀ p' s, p' ≠ p → ((p', s) ∈ st'.handed ↔ (p', s) ∈ st.handed))
    (hnd : (st'.handed.map Prod.fst).Nodup)
    (hallocated : st.allocated ≤ st'.allocated ∧ p < st'.allocated)
    (howner : ∀ s p', (st'.strm s).pendPos = some p' →
      p' ≠ p ∧ (st.strm s).pendPos = some p' ∨ p' = p ∧ ∃ pc, x = some pc ∧ pc.strm = s) :
    Links st' := by
  have hsame {p' : ℕ} (hne : p' ≠ p) : st'.pendconn p' = st.pendconn p' := by
    rw [hpendconn, Function.update_of_ne hne]
  have hat : st'.pendconn p = x := by rw [hpendconn, Function.update_self]
  have hkeys {p' : ℕ} (hne : p' ≠ p) : p' ∈ st'.handed.map Prod.fst ↔ p' ∈ st.handed.map Prod.fst := by
    simp [hhanded p' _ hne]
  refine ⟨fun p' q => ?_, hnodup, fun p' pc q hpc => ?_, fun p' pc hpc => ?_, fun p' pc s hpc => ?_,
    hnd, fun p' hp' => ?_, fun s p' hs => ?_⟩
  · by_cases hne : p' = p
    · rw [hne, hself, hat]
    · rw [hmem p' q hne, h.mem_iff, hsame hne]
  · by_cases hne : p' = p
    · rw [hne, hat] at hpc
      exact hqueue pc q hpc
    · rw [hsame hne] at hpc
      exact h.queue p' pc q hpc
  · by_cases hne : p' = p
    · rw [hne, hat] at hpc
      rw [hne]
      exact hwaiting pc hpc
    · rw [hsame hne] at hpc
      rw [hkeys hne]
      exact h.waiting p' pc hpc
  · by_cases hne : p' = p
    · rw [hne, hat] at hpc
      rw [hne]
      exact htarget pc s hpc
    · rw [hsame hne] at hpc
      rw [hhanded p' s hne]
      exact h.target p' pc s hpc
  · have hne : p' ≠ p := fun hne => absurd hallocated.2 (not_lt.mpr (hne ▸ hp'))
    rw [hsame hne, hkeys hne]
    exact h.fresh p' (hallocated.1.trans hp')
  · rcases howner s p' hs with ⟨hne, hs'⟩ | ⟨rfl, hx⟩
    · rw [hsame hne]
      exact h.owner s p' hs'
    · rw [hat]
      exact hx

theorem owner_change (h : Links st) (hp : st.pendconn p = some pc) {pc' : Pendconn σ ι}
    (hs : pc'.strm = pc.strm) (s : σ) (p' : ℕ) (hpos : (st.strm s).pendPos = some p') :
    p' ≠ p ∧ (st.strm s).pendPos = some p' ∨
      p' = p ∧ ∃ pc'', some pc' = some pc'' ∧ pc''.strm = s := by
  by_cases hne : p' = p
  · subst hne
    obtain ⟨pc₁, hpc₁, ho⟩ := h.owner s _ hpos
    obtain rfl := Option.some.inj (hp.symm.trans hpc₁)
    exact Or.inr ⟨rfl, pc', rfl, hs.trans ho⟩
  · exact Or.inl ⟨hne, hpos⟩

theorem updPendconn (h : Links st) (hp : st.pendconn p = some pc) {f : Pendconn σ ι → Pendconn σ ι}
    (hl : (f pc).leafP = pc.leafP) (hq : (f pc).queue = pc.queue)
    (ht : (f pc).target = pc.target) (hs : (f pc).strm = pc.strm) : Links (st.updPendconn p f) := by
  have hupd : (st.updPendconn p f).pendconn = Function.update st.pendconn p (some (f pc)) := by
    rw [Queues.updPendconn, hp, Option.map_some]
  refine h.change hupd (fun _ _ _ => Iff.rfl) (fun q => ?_) h.nodup ?_ ?_ ?_
    (fun _ _ _ => Iff.rfl) h.handed ⟨le_rfl, h.lt_allocated hp⟩ (h.owner_change hp hs)
  · show p ∈ (st.queue q).head.items ↔ _
    rw [h.mem_iff, hp]
    simp [hl]
  · rintro _ q ⟨⟩ hleaf
    rw [hq]
    exact h.queue p pc q hp (hl ▸ hleaf)
  · rintro _ ⟨⟩ hleaf
    exact h.waiting p pc hp (hl ▸ hleaf)
  · rintro _ s ⟨⟩
    rw [ht]
    exact h.target p pc s hp

/-! The trees after a deletion. -/

section Delete

variable [DecidableEq ι]

theorem deleteNode_eq (hp : st.pendconn p = some pc) (hl : pc.leafP = some q) :
    st.deleteNode p = (st.updQueue q fun t => { t with head := t.head.delete p }).updPendconn p
      fun pc => { pc with leafP := none } := by
  rw [Queues.deleteNode, hp, Option.bind_some, hl]

theorem queue_deleteNode (hp : st.pendconn p = some pc) (hl : pc.leafP = some q) :
    (st.deleteNode p).queue
      = Function.update st.queue q { st.queue q with head := (st.queue q).head.delete p } := by
  rw [deleteNode_eq hp hl]
  rfl

theorem pendconn_deleteNode (hp : st.pendconn p = some pc) (hl : pc.leafP = some q) :
    (st.deleteNode p).pendconn = Function.update st.pendconn p (some { pc with leafP := none }) := by
  rw [deleteNode_eq hp hl]
  show Function.update st.pendconn p ((st.pendconn p).map _) = _
  rw [hp, Option.map_some]

theorem mem_deleteNode (h : Links st) (hp : st.pendconn p = some pc) (hl : pc.leafP = some q)
    (p' : ℕ) (q' : Option ι) :
    p' ∈ ((st.deleteNode p).queue q').head.items ↔ p' ≠ p ∧ p' ∈ (st.queue q').head.items := by
  rw [queue_deleteNode hp hl]
  by_cases hq : q' = q
  · subst hq
    rw [Function.update_self, EbTree.items_delete, List.mem_filter]
    simp [and_comm]
  · rw [Function.update_of_ne hq]
    constructor
    · intro hmem
      refine ⟨?_, hmem⟩
      rintro rfl
      obtain ⟨pc', hpc', hl'⟩ := (h.mem_iff _ q').mp hmem
      obtain rfl := Option.some.inj (hp.symm.trans hpc')
      exact hq (Option.some.inj (hl'.symm.trans hl))
    · exact And.right

theorem deleteNode (h : Links st) (hp : st.pendconn p = some pc) (hl : pc.leafP = some q) :
    Links (st.deleteNode p) := by
  have hhanded : (st.deleteNode p).handed = st.handed := by rw [deleteNode_eq hp hl]; rfl
  have hallocated : (st.deleteNode p).allocated = st.allocated := by rw [deleteNode_eq hp hl]; rfl
  have hstrm : (st.deleteNode p).strm = st.strm := by rw [deleteNode_eq hp hl]; rfl
  refine h.change (pendconn_deleteNode hp hl) (fun p' q' hne => ?_) (fun q' => ?_) (fun q' => ?_)
    ?_ ?_ ?_ (fun p' s _ => by rw [hhanded]) (hhanded ▸ h.handed)
    ⟨hallocated.ge, hallocated ▸ h.lt_allocated hp⟩ (fun s p' hpos => h.owner_change hp (by rfl) s p' (hstrm ▸ hpos))
  · rw [h.mem_deleteNode hp hl]
    simp [hne]
  · rw [h.mem_deleteNode hp hl]
    simp
  · rw [queue_deleteNode hp hl]
    by_cases hq : q' = q
    · subst hq
      rw [Function.update_self, EbTree.items_delete]
      exact (h.nodup q').filter _
    · rw [Function.update_of_ne hq]
      exact h.nodup q'
  · rintro _ q' ⟨⟩ hleaf
    simp at hleaf
  · rintro _ ⟨⟩ hleaf
    simp at hleaf
  · rintro _ s ⟨⟩
    rw [hhanded]
    exact h.target p pc s hp

end Delete

theorem hand (h : Links st) (hp : st.pendconn p = some pc) (hl : pc.leafP = none)
    (hh : p ∉ st.handed.map Prod.fst) (srv : ι) : Links (pendconnHand st p srv) := by
  have hhanded : (pendconnHand st p srv).handed = st.handed ++ [(p, srv)] := rfl
  have hupd : (pendconnHand st p srv).pendconn
      = Function.update st.pendconn p (some { pc with target := some srv }) := by
    show Function.update st.pendconn p ((st.pendconn p).map _) = _
    rw [hp, Option.map_some]
  refine h.change hupd (fun _ _ _ => Iff.rfl) (fun q => ?_) h.nodup ?_ ?_ ?_ (fun p' s hne => ?_) ?_
    ⟨le_rfl, h.lt_allocated hp⟩ (h.owner_change hp rfl)
  · show p ∈ (st.queue q).head.items ↔ _
    rw [h.mem_iff, hp]
    simp
  · rintro _ q ⟨⟩ hleaf
    exact h.queue p pc q hp hleaf
  · rintro _ ⟨⟩ hleaf
    simp [hl] at hleaf
  · rintro _ s ⟨⟩
    -- the log had nothing about this pendconn
    have hnone : (p, s) ∉ st.handed := fun hmem => hh (List.mem_map_of_mem hmem)
    rw [hhanded]
    simp [hnone, eq_comm]
  · rw [hhanded]
    simp [hne]
  · rw [hhanded, List.map_append, List.nodup_append]
    refine ⟨h.handed, by simp, ?_⟩
    rintro a ha b hb rfl
    simp only [List.map_cons, List.map_nil, List.mem_singleton] at hb
    exact hh (hb ▸ ha)

theorem release (h : Links st) (hp : st.pendconn p = some pc) (hl : pc.leafP = none)
    (ho : ∀ s, (st.strm s).pendPos ≠ some p) : Links (st.release p) := by
  refine h.change (x := none) rfl (fun _ _ _ => Iff.rfl) (fun q => ?_) h.nodup (by simp) (by simp)
    (by simp) (fun _ _ _ => Iff.rfl) h.handed ⟨le_rfl, h.lt_allocated hp⟩ (fun s p' hpos => ?_)
  · show p ∈ (st.queue q).head.items ↔ _
    rw [h.mem_iff, hp]
    simp [hl]
  · refine Or.inl ⟨?_, hpos⟩
    rintro rfl
    exact ho s hpos

/-- A new pendconn is linked in the queue it waits in. -/
theorem add [DecidableEq σ] [DecidableEq ι] (h : Links st) (nowMs : UInt32) (strm : σ) :
    Links (pendconnAdd nowMs st strm) := by
  obtain ⟨-, hh⟩ := h.fresh st.allocated le_rfl
  have hnew (q : Option ι) : st.allocated ∉ (st.queue q).head.items := by
    rw [h.mem_iff, (h.fresh st.allocated le_rfl).1]
    simp
  -- the tree of one queue, named as in the function, has one more node
  let q₀ := if (st.strm strm).flags.assigned then (st.strm strm).target else none
  have hitems (p' : ℕ) (q : Option ι) : p' ∈ ((pendconnAdd nowMs st strm).queue q).head.items ↔
      q = q₀ ∧ p' = st.allocated ∨ p' ∈ (st.queue q).head.items := by
    by_cases hq : q = q₀
    · subst hq
      simp [pendconnAdd, Queues.updQueue, Queues.updStrm, q₀]
    · have hq' : q ≠ if (st.strm strm).flags.assigned then (st.strm strm).target else none := hq
      simp [pendconnAdd, Queues.updQueue, Queues.updStrm, hq', hq]
  refine h.change (p := st.allocated) rfl (fun p' q hne => ?_) (fun q => ?_) (fun q => ?_) ?_
    (fun _ _ _ => hh) ?_ (fun _ _ _ => Iff.rfl) h.handed ⟨Nat.le_succ _, Nat.lt_succ_self _⟩
    (fun s p' hpos => ?_)
  · rw [hitems]
    simp [hne]
  · rw [hitems]
    constructor
    · rintro (⟨hq, -⟩ | hmem)
      · exact ⟨_, rfl, congrArg some hq.symm⟩
      · exact absurd hmem (hnew q)
    · rintro ⟨_, ⟨⟩, hleaf⟩
      exact Or.inl ⟨(Option.some.inj hleaf).symm, rfl⟩
  · by_cases hq : q = q₀
    · subst hq
      have hperm := (st.queue q₀).head.items_insert_perm
        (makeKey nowMs (st.strm strm).priorityClass (st.strm strm).priorityOffset) st.allocated
      have hnodup := hperm.nodup_iff.mpr (List.nodup_cons.mpr ⟨hnew q₀, h.nodup q₀⟩)
      simpa [pendconnAdd, Queues.updQueue, Queues.updStrm, q₀] using hnodup
    · have hq' : q ≠ if (st.strm strm).flags.assigned then (st.strm strm).target else none := hq
      simpa [pendconnAdd, Queues.updQueue, Queues.updStrm, hq'] using h.nodup q
  · rintro _ q ⟨⟩ hleaf
    exact Option.some.inj hleaf
  · rintro _ s ⟨⟩
    have hnone : (st.allocated, s) ∉ st.handed := fun hmem => hh (List.mem_map_of_mem hmem)
    show none = some s ↔ (st.allocated, s) ∈ st.handed
    simp [hnone]
  · by_cases hs : s = strm
    · subst hs
      right
      have hp' : p' = st.allocated := by
        simpa [pendconnAdd, Queues.updQueue, Queues.updStrm] using hpos.symm
      exact ⟨hp', _, rfl, rfl⟩
    · left
      have hpos' : (st.strm s).pendPos = some p' := by
        simpa [pendconnAdd, Queues.updQueue, Queues.updStrm, hs] using hpos
      obtain ⟨pc', hpc', -⟩ := h.owner s p' hpos'
      exact ⟨(h.lt_allocated hpc').ne, hpos'⟩

end Links

/-! ### The counters -/

section Counters

variable [Fintype ι] [DecidableEq ι]

/-- The `length` of queue `q` is too large by `debt`, and `totpend` by `owed`; all
other counters are right. -/
structure Tallied (q : Option ι) (debt owed : ℤ) (st : Queues σ ι L) : Prop where
  length : ∀ q', (st.queue q').length = st.size q' + if q' = q then debt else 0
  totpend : st.totpend = ∑ q', (st.size q' : ℤ) + owed

namespace Tallied

variable {st : Queues σ ι L} {q : Option ι} {debt owed : ℤ} {p : ℕ} {pc : Pendconn σ ι}

theorem settle (h : Tallied q 0 owed st) (q' : Option ι) : Tallied q' 0 owed st :=
  ⟨fun q'' => by simpa using h.length q'', h.totpend⟩

theorem other (h : Tallied q debt owed st) (hqueue : st'.queue = st.queue)
    (htotpend : st'.totpend = st.totpend) : Tallied q debt owed st' := by
  have hsize : st'.size = st.size := by
    funext q'
    rw [Queues.size, hqueue]
    rfl
  refine ⟨?_, ?_⟩
  · rw [hqueue, hsize]
    exact h.length
  · rw [htotpend, hsize]
    exact h.totpend

theorem resize {d : ℤ} (h : Tallied q debt owed st)
    (hsize : ∀ q', (st'.size q' : ℤ) = st.size q' + if q' = q then d else 0)
    (hlength : ∀ q', (st'.queue q').length = (st.queue q').length)
    (htotpend : st'.totpend = st.totpend) : Tallied q (debt - d) (owed - d) st' := by
  refine ⟨fun q' => ?_, ?_⟩
  · rw [hlength, hsize, h.length]
    split_ifs <;> ring
  · have hsum : ∑ q', (st'.size q' : ℤ) = ∑ q', (st.size q' : ℤ) + d := by
      simp only [hsize, Finset.sum_add_distrib, Finset.sum_ite_eq', Finset.mem_univ, if_true]
    rw [htotpend, h.totpend, hsum]
    ring

theorem deleteNode (h : Tallied q debt owed st) (hlinks : Links st)
    (hp : st.pendconn p = some pc) (hl : pc.leafP = some q) :
    Tallied q (debt + 1) (owed + 1) (st.deleteNode p) := by
  have hqueue := Links.queue_deleteNode hp hl
  have hdel := EbTree.length_delete_of_nodup (hlinks.mem_of_linked hp hl) (hlinks.nodup q)
  have hr : Tallied q (debt - -1) (owed - -1) (st.deleteNode p) := by
    refine h.resize (fun q' => ?_) (fun q' => ?_) ?_
    · by_cases hq : q' = q
      · subst hq
        rw [Queues.size, Queues.size, hqueue, Function.update_self, if_pos rfl]
        show ((((st.queue q').head.delete p).items.length : ℕ) : ℤ) = _
        omega
      · rw [Queues.size, Queues.size, hqueue, Function.update_of_ne hq, if_neg hq, add_zero]
    · rw [hqueue]
      by_cases hq : q' = q
      · subst hq
        rw [Function.update_self]
      · rw [Function.update_of_ne hq]
    · rw [Links.deleteNode_eq hp hl]
      rfl
  simpa using hr

theorem payLength (h : Tallied q debt owed st) (n : ℤ) {f : Queue → Queue}
    (hhead : (f (st.queue q)).head = (st.queue q).head)
    (hlength : (f (st.queue q)).length = (st.queue q).length - n) :
    Tallied q (debt - n) owed (st.updQueue q f) := by
  have hsize : (st.updQueue q f).size = st.size := by
    funext q'
    by_cases hq : q' = q
    · subst hq
      simp [Queues.size, Queues.updQueue, hhead]
    · simp [Queues.size, Queues.updQueue, hq]
  refine ⟨fun q' => ?_, ?_⟩
  · rw [hsize]
    by_cases hq : q' = q
    · subst hq
      have hlen := h.length q'
      rw [if_pos rfl] at hlen ⊢
      simp only [Queues.updQueue, Function.update_self, hlength, hlen]
      ring
    · have hlen := h.length q'
      rw [if_neg hq] at hlen ⊢
      simpa [Queues.updQueue, hq] using hlen
  · rw [hsize]
    exact h.totpend

theorem payTotpend (h : Tallied q debt owed st) (n : ℤ) :
    Tallied q debt (owed - n) { st with totpend := st.totpend - n } := by
  refine ⟨h.length, ?_⟩
  show st.totpend - n = ∑ q', (st.size q' : ℤ) + (owed - n)
  rw [h.totpend]
  ring

/-- A new pendconn is counted at once. -/
theorem add [DecidableEq σ] (h : Tallied none 0 0 st) (nowMs : UInt32) (strm : σ) :
    Tallied none 0 0 (pendconnAdd nowMs st strm) := by
  let q₀ := if (st.strm strm).flags.assigned then (st.strm strm).target else none
  have hqueue : (pendconnAdd nowMs st strm).queue = Function.update st.queue q₀
      { st.queue q₀ with
        length := (st.queue q₀).length + 1
        nbpendMax := max (st.queue q₀).nbpendMax ((st.queue q₀).length + 1)
        head := (st.queue q₀).head.insert
          (makeKey nowMs (st.strm strm).priorityClass (st.strm strm).priorityOffset)
          st.allocated } := rfl
  have hins := ((st.queue q₀).head.items_insert_perm
    (makeKey nowMs (st.strm strm).priorityClass (st.strm strm).priorityOffset)
    st.allocated).length_eq
  rw [List.length_cons] at hins
  have hsize (q' : Option ι) : ((pendconnAdd nowMs st strm).size q' : ℤ)
      = st.size q' + if q' = q₀ then 1 else 0 := by
    rw [Queues.size, Queues.size, hqueue]
    by_cases hq : q' = q₀
    · subst hq
      rw [Function.update_self, if_pos rfl]
      push_cast [hins]
      rfl
    · rw [Function.update_of_ne hq, if_neg hq, add_zero]
  refine ⟨fun q' => ?_, ?_⟩
  · have hlen := h.length q'
    rw [hsize, hqueue]
    by_cases hq : q' = q₀
    · subst hq
      rw [Function.update_self, if_pos rfl, hlen]
      simp
    · rw [Function.update_of_ne hq, if_neg hq, hlen]
      simp
  · show st.totpend + 1 = _
    simp only [hsize, Finset.sum_add_distrib, Finset.sum_ite_eq', Finset.mem_univ, if_true,
      h.totpend]
    ring

end Tallied

end Counters

end SmartHAProxy
