/-
Conservation of pending connections, over any interleaving of the functions
of queue.c.

Every function is shown to keep the links and to pay its debts; the loops of
`process_srv_queue`, `pendconn_grab_from_px` and `pendconn_redistribute` run
up a debt with each turn, which is their loop invariant.

Main results: a `Kept` lemma for each function and `pendconns_conserved`.
-/
import SmartHAProxy.Queue.Conserve
import Mathlib.Data.Fintype.BigOperators

namespace SmartHAProxy

variable {σ ι L : Type*}

/-! ### Taking a pendconn out of its queue -/

section Parts

variable [DecidableEq σ] [DecidableEq ι] {st : Queues σ ι L} {p : ℕ} {pc : Pendconn σ ι}
  {q : Option ι}

omit [DecidableEq σ] [DecidableEq ι] in
@[simp] theorem pendPos_moved (inServer : Bool) (d : UInt32) (s : Strm ι) :
    (s.moved inServer d).pendPos = s.pendPos := by
  unfold Strm.moved
  split_ifs <;> rfl

theorem unlinkNode_eq (inServer : Bool) (hp : st.pendconn p = some pc) (hl : pc.leafP = some q) :
    pendconnUnlinkNode inServer st p
      = { st with
          strm := Function.update st.strm pc.strm
            ((st.strm pc.strm).moved inServer ((st.queue pc.queue).idx - pc.queueIdx))
          queue := Function.update st.queue q
            { st.queue q with head := (st.queue q).head.delete p }
          pendconn := Function.update st.pendconn p (some { pc with leafP := none }) } := by
  rw [pendconnUnlinkNode, hp]
  show (st.updStrm pc.strm _).deleteNode p = _
  rw [Links.deleteNode_eq (by exact hp) hl]
  show { st with
    strm := _
    queue := _
    pendconn := Function.update st.pendconn p ((st.pendconn p).map _) } = _
  rw [hp, Option.map_some]
  rfl

/-- The pendconn as `pendconnAssign` leaves it. -/
def Pendconn.assigned (pc : Pendconn σ ι) (srv : ι) : Pendconn σ ι :=
  { pc with strmFlags := { pc.strmFlags with assigned := true }, target := some srv }

omit [DecidableEq ι] in
theorem assign_eq (hp : st.pendconn p = some pc) (srv : ι) :
    pendconnAssign st p srv
      = { st with
          pendconn := Function.update st.pendconn p (some (pc.assigned srv))
          handed := st.handed ++ [(p, srv)]
          strm := Function.update st.strm pc.strm
            { st.strm pc.strm with srvConn := some srv } } := by
  simp [pendconnAssign, pendconnHand, Queues.updPendconn, Queues.updStrm, hp, Pendconn.assigned]

theorem unlinkSrv_assign (hp : st.pendconn p = some pc) (hl : pc.leafP = some q) (srv : ι) :
    pendconnUnlinkSrv (pendconnAssign st p srv) p = pendconnAssign (pendconnUnlinkSrv st p) p srv := by
  have hp' : (pendconnAssign st p srv).pendconn p = some (pc.assigned srv) := by
    rw [assign_eq hp]
    simp
  have hp'' : (pendconnUnlinkSrv st p).pendconn p = some { pc with leafP := none } := by
    rw [pendconnUnlinkSrv, unlinkNode_eq _ hp hl]
    simp
  rw [pendconnUnlinkSrv, unlinkNode_eq _ hp' hl, assign_eq hp'', pendconnUnlinkSrv,
    unlinkNode_eq _ hp hl, assign_eq hp]
  simp [Pendconn.assigned, Strm.moved]

end Parts

/-! ### What the parts do to the invariant -/

section Kept

variable [DecidableEq σ] [Fintype ι] [DecidableEq ι]

/-- The links are right, and so are the counters up to the given debts. -/
structure Kept (q : Option ι) (debt owed : ℤ) (st : Queues σ ι L) : Prop where
  links : Links st
  tallied : Tallied q debt owed st

variable {st : Queues σ ι L} {p : ℕ} {pc : Pendconn σ ι} {q : Option ι} {debt owed : ℤ}

/-- A pendconn is taken out of its queue: who is linked now, and what has become
of it. -/
structure TakenOut (p : ℕ) (pc : Pendconn σ ι) (q : Option ι) (debt owed : ℤ)
    (st st' : Queues σ ι L) : Prop where
  kept : Kept q (debt + 1) (owed + 1) st'
  pendconn : st'.pendconn p = some pc
  mem_iff : ∀ p' q', p' ∈ (st'.queue q').head.items ↔ p' ≠ p ∧ p' ∈ (st.queue q').head.items
  handed : st'.handed = st.handed
  back : st'.back = st.back
  size_self : st'.size q + 1 = st.size q
  size_other : ∀ q', q' ≠ q → st'.size q' = st.size q'

theorem Kept.unlinkNode (h : Kept q debt owed st) (inServer : Bool)
    (hp : st.pendconn p = some pc) (hl : pc.leafP = some q) :
    TakenOut p { pc with leafP := none } q debt owed st (pendconnUnlinkNode inServer st p) := by
  have hstrm := h.links.updStrm (s := pc.strm)
    (f := Strm.moved inServer ((st.queue pc.queue).idx - pc.queueIdx)) (pendPos_moved _ _ _)
  have htally : Tallied q debt owed
      (st.updStrm pc.strm (Strm.moved inServer ((st.queue pc.queue).idx - pc.queueIdx))) :=
    h.tallied.other rfl rfl
  have hun : pendconnUnlinkNode inServer st p
      = (st.updStrm pc.strm (Strm.moved inServer ((st.queue pc.queue).idx - pc.queueIdx))).deleteNode
        p := by
    rw [pendconnUnlinkNode, hp]
  refine ⟨?_, ?_, fun p' q' => ?_, ?_, ?_, ?_, fun q' hq => ?_⟩
  · rw [hun]
    exact ⟨hstrm.deleteNode hp hl, htally.deleteNode hstrm hp hl⟩
  · rw [unlinkNode_eq inServer hp hl]
    exact Function.update_self ..
  · rw [hun, hstrm.mem_deleteNode hp hl]
    rfl
  · rw [unlinkNode_eq inServer hp hl]
  · rw [unlinkNode_eq inServer hp hl]
  · rw [unlinkNode_eq inServer hp hl, Queues.size, Queues.size]
    simp only [Function.update_self]
    exact EbTree.length_delete_of_nodup (h.links.mem_of_linked hp hl) (h.links.nodup q)
  · rw [unlinkNode_eq inServer hp hl, Queues.size, Queues.size]
    simp only [Function.update_of_ne hq]

theorem Kept.unlinkSrv (h : Kept q debt owed st) (hp : st.pendconn p = some pc)
    (hl : pc.leafP = some q) :
    TakenOut p { pc with leafP := none } q debt owed st (pendconnUnlinkSrv st p) :=
  h.unlinkNode true hp hl

theorem Kept.unlinkPrx (h : Kept q debt owed st) (hp : st.pendconn p = some pc)
    (hl : pc.leafP = some q) :
    TakenOut p { pc with leafP := none } q debt owed st (pendconnUnlinkPrx st p) :=
  h.unlinkNode false hp hl

omit [DecidableEq σ] in
theorem Kept.hand (h : Kept q debt owed st) (hp : st.pendconn p = some pc) (hl : pc.leafP = none)
    (hh : p ∉ st.handed.map Prod.fst) (srv : ι) : Kept q debt owed (pendconnHand st p srv) :=
  ⟨h.links.hand hp hl hh srv, h.tallied.other rfl rfl⟩

theorem Kept.assign (h : Kept q debt owed st) (hp : st.pendconn p = some pc) (hl : pc.leafP = none)
    (hh : p ∉ st.handed.map Prod.fst) (srv : ι) : Kept q debt owed (pendconnAssign st p srv) := by
  let f (pc : Pendconn σ ι) : Pendconn σ ι :=
    { pc with strmFlags := { pc.strmFlags with assigned := true } }
  have hp₁ : (st.updPendconn p f).pendconn p = some (f pc) := by
    simp [Queues.updPendconn, hp]
  have h₁ : Links (st.updPendconn p f) := h.links.updPendconn hp rfl rfl rfl rfl
  have hp₂ : (pendconnHand (st.updPendconn p f) p srv).pendconn p
      = some { f pc with target := some srv } := by
    simp [pendconnHand, Queues.updPendconn, hp]
  have h₂ : Links (pendconnHand (st.updPendconn p f) p srv) := h₁.hand hp₁ hl hh srv
  have heq : pendconnAssign st p srv = (pendconnHand (st.updPendconn p f) p srv).updStrm
      (f pc).strm fun s => { s with srvConn := some srv } := by
    rw [pendconnAssign, hp₂]
  rw [heq]
  exact ⟨h₂.updStrm rfl, h.tallied.other rfl rfl⟩

/-! ### `pendconn_process_next_strm` -/

omit [DecidableEq σ] [Fintype ι] [DecidableEq ι] in
theorem pendconnFirst_mem {nowMs : UInt32} {t : EbTree UInt32 ℕ} {n : UInt32 × ℕ}
    (h : pendconnFirst nowMs t = some n) : n.2 ∈ t.items := by
  unfold pendconnFirst at h
  split at h
  · simp at h
  · rename_i node hnode
    split at h
    · obtain rfl := Option.some.inj h
      exact EbTree.firstNode_mem hnode
    · rename_i node₂ hnode₂
      split_ifs at h
      · obtain rfl := Option.some.inj h
        exact EbTree.firstNode_mem hnode
      · obtain rfl := Option.some.inj h
        exact EbTree.lookupGe_mem hnode₂

omit [DecidableEq σ] in
theorem Kept.waiting (h : Kept q debt owed st) {q' : Option ι} (hmem : p ∈ (st.queue q').head.items) :
    ∃ pc, st.pendconn p = some pc ∧ pc.leafP = some q' ∧ p ∉ st.handed.map Prod.fst := by
  obtain ⟨pc, hp, hl⟩ := (h.links.mem_iff p q').mp hmem
  exact ⟨pc, hp, hl, h.links.waiting p pc hp (by rw [hl]; rfl)⟩

theorem TakenOut.assign {st₁ : Queues σ ι L} (h : TakenOut p pc q 0 owed st st₁)
    (hl : pc.leafP = none) (hh : p ∉ st.handed.map Prod.fst) (srv : ι) :
    Kept q 0 (owed + 1) ((pendconnAssign st₁ p srv).updQueue q Queue.advance) ∧
      ((pendconnAssign st₁ p srv).updQueue q Queue.advance).size = st₁.size := by
  have hassign := h.kept.assign h.pendconn hl (h.handed ▸ hh) srv
  have hqueue : (pendconnAssign st₁ p srv).queue = st₁.queue := by
    rw [assign_eq h.pendconn]
  refine ⟨⟨hassign.links.updQueue rfl, ?_⟩, ?_⟩
  · have hpay := hassign.tallied.payLength 1 (f := Queue.advance) rfl rfl
    simpa using hpay
  · funext q'
    by_cases hq : q' = q
    · subst hq
      simp [Queues.size, Queues.updQueue, Queue.advance, hqueue]
    · simp [Queues.size, Queues.updQueue, hq, hqueue]

/-- A stream of the server's or of the proxy's queue is processed: only
`totpend` is left to be corrected. -/
theorem Kept.processNextStrm {st' : Queues σ ι L} {nowMs : UInt32} {srv : ι} {pxOk : Bool}
    (h : Kept none 0 owed st) (hr : pendconnProcessNextStrm nowMs st srv pxOk = some st') :
    Kept none 0 (owed + 1) st' ∧
      st'.size (some srv) + st'.size none + 1 = st.size (some srv) + st.size none := by
  have h' : Kept (some srv) 0 owed st := ⟨h.links, h.tallied.settle _⟩
  have huseP : ∀ n, pendconnFirst nowMs (st.queue (some srv)).head = some n →
      some ((pendconnUnlinkSrv (pendconnAssign st n.2 srv) n.2).updQueue (some srv) Queue.advance)
        = some st' → Kept none 0 (owed + 1) st' ∧
        st'.size (some srv) + st'.size none + 1 = st.size (some srv) + st.size none := by
    intro n hn he
    obtain ⟨pc, hp, hl, hh⟩ := h'.waiting (pendconnFirst_mem hn)
    have hout := h'.unlinkSrv hp hl
    obtain ⟨hkept, hsize⟩ := hout.assign rfl hh srv
    obtain rfl := Option.some.inj he
    rw [unlinkSrv_assign hp hl, hsize, ← hout.size_self, ← hout.size_other none (by simp)]
    exact ⟨⟨hkept.links, hkept.tallied.settle _⟩, by omega⟩
  have husePp : ∀ n, pendconnFirst nowMs (st.queue none).head = some n →
      some ((pendconnAssign (pendconnUnlinkPrx st n.2) n.2 srv).updQueue none Queue.advance)
        = some st' → Kept none 0 (owed + 1) st' ∧
        st'.size (some srv) + st'.size none + 1 = st.size (some srv) + st.size none := by
    intro n hn he
    obtain ⟨pc, hp, hl, hh⟩ := h.waiting (pendconnFirst_mem hn)
    have hout := h.unlinkPrx hp hl
    obtain ⟨hkept, hsize⟩ := hout.assign rfl hh srv
    obtain rfl := Option.some.inj he
    rw [hsize, ← hout.size_self, ← hout.size_other (some srv) (by simp)]
    exact ⟨hkept, by omega⟩
  -- which queue is looked at depends on the lengths and on `pxOk`
  have hfirst {c : Prop} [Decidable c] {x : Option (UInt32 × ℕ)} {n : UInt32 × ℕ}
      (hx : (if c then x else none) = some n) : x = some n := by
    split_ifs at hx
    exact hx
  simp only [pendconnProcessNextStrm] at hr
  split at hr
  · simp at hr
  · rename_i n hn _
    exact huseP n (hfirst hn) hr
  · rename_i n _ hn
    exact husePp n (hfirst hn) hr
  · rename_i n n' hn hn'
    split_ifs at hr
    · exact huseP n (hfirst hn) hr
    · exact husePp n' (hfirst hn') hr

/-! ### The loops -/

omit [DecidableEq σ] in
theorem Kept.withBack (h : Kept q debt owed st) (b : Backend ι L) :
    Kept q debt owed { st with back := b } :=
  ⟨h.links.other (fun _ => rfl) rfl rfl rfl fun _ => rfl, h.tallied.other rfl rfl⟩

omit [DecidableEq σ] in
theorem Kept.payTotpend (h : Kept q debt owed st) (n : ℤ) :
    Kept q debt (owed - n) { st with totpend := st.totpend - n } :=
  ⟨h.links.other (fun _ => rfl) rfl rfl rfl fun _ => rfl, h.tallied.payTotpend n⟩

omit [DecidableEq σ] in
theorem Kept.transferred {n : ℕ} (h : Kept q n n st) :
    Kept none 0 0 (pendconnTransferred q st n) := by
  have hpay := h.tallied.payLength n (f := fun t => { t with length := t.length - n }) rfl rfl
  have hboth := Kept.payTotpend ⟨h.links.updQueue rfl, hpay⟩ n
  rw [sub_self] at hboth
  exact ⟨hboth.links, hboth.tallied.settle none⟩

theorem Kept.processSrvQueueLoop (nowMs maxconn : UInt32) (srv : ι) (pxOk : Bool) (fuel : ℕ)
    {st : Queues σ ι L} {done : ℕ} (h : Kept none 0 done st)
    (hfuel : st.size (some srv) + st.size none < fuel) :
    ∃ r, processSrvQueueLoop nowMs srv maxconn pxOk fuel st done = some r ∧
      Kept none 0 r.2 r.1 := by
  induction fuel generalizing st done with
  | zero => exact absurd hfuel (Nat.not_lt_zero _)
  | succ fuel ih =>
    simp only [SmartHAProxy.processSrvQueueLoop]
    split_ifs
    · rcases hr : pendconnProcessNextStrm nowMs st srv pxOk with - | st'
      · exact ⟨_, rfl, h⟩
      · obtain ⟨hkept, hsize⟩ := h.processNextStrm hr
        have hnext : Kept none 0 ((done + 1 : ℕ) : ℤ) (st'.incServed srv) := by
          push_cast
          exact hkept.withBack _
        have hfuel' : (st'.incServed srv).size (some srv) + (st'.incServed srv).size none < fuel := by
          show st'.size (some srv) + st'.size none < fuel
          omega
        exact ih hnext hfuel'
    · exact ⟨_, rfl, h⟩

omit [DecidableEq σ] in
theorem Kept.processSrvQueueEnd {done : ℕ} (h : Kept none 0 done st) (srv : ι) :
    Kept none 0 0 (processSrvQueueEnd srv st done) := by
  simp only [SmartHAProxy.processSrvQueueEnd]
  split_ifs with hdone
  · rw [hdone] at h
    exact h
  · have hpaid := h.payTotpend done
    rw [sub_self] at hpaid
    split
    · exact hpaid.withBack _
    · exact hpaid.withBack _

/-- **`process_srv_queue` ends and leaves right counters behind.** -/
theorem Kept.processSrvQueue (h : Kept none 0 0 st) (now : ℤ) (nowMs : UInt32) (srv : ι) :
    ∃ st', processSrvQueue now nowMs st srv = some st' ∧ Kept none 0 0 st' := by
  have hstart : Kept none 0 ((0 : ℕ) : ℤ) st := h
  obtain ⟨r, hr, hkept⟩ := hstart.processSrvQueueLoop nowMs
    (srvDynamicMaxconn st.back.px now (st.back.srv srv)) srv
    ((st.back.srv ((st.track srv).getD srv)).currentlyUsable && st.electable srv)
    _ (Nat.lt_succ_self _)
  refine ⟨_, ?_, hkept.processSrvQueueEnd srv⟩
  rw [SmartHAProxy.processSrvQueue, hr, Option.map_some]

theorem Kept.grabLoop (nowMs maxconn : UInt32) (srv : ι) (fuel : ℕ) {st : Queues σ ι L}
    {xferred : ℕ} (h : Kept none xferred xferred st) (hfuel : st.size none < fuel) :
    ∃ r, pendconnGrabLoop nowMs srv maxconn fuel st xferred = some r ∧
      Kept none r.2 r.2 r.1 := by
  induction fuel generalizing st xferred with
  | zero => exact absurd hfuel (Nat.not_lt_zero _)
  | succ fuel ih =>
    simp only [pendconnGrabLoop]
    rcases hn : pendconnFirst nowMs (st.queue none).head with - | ⟨key, p⟩
    · exact ⟨_, rfl, h⟩
    · simp only
      split_ifs
      · exact ⟨_, rfl, h⟩
      · obtain ⟨pc, hp, hl, hh⟩ := h.waiting (pendconnFirst_mem hn)
        have hout := h.unlinkPrx hp hl
        have hnext := hout.kept.hand hout.pendconn rfl (hout.handed ▸ hh) srv
        refine ih (by push_cast; exact hnext) ?_
        have hsize : (pendconnUnlinkPrx st p).size none + 1 = st.size none := hout.size_self
        show (pendconnUnlinkPrx st p).size none < fuel
        omega

/-- **`pendconn_grab_from_px` ends and leaves right counters behind.** -/
theorem Kept.grabFromPx (h : Kept none 0 0 st) (now : ℤ) (nowMs : UInt32) (srv : ι) :
    ∃ st', pendconnGrabFromPx now nowMs st srv = some st' ∧ Kept none 0 0 st' := by
  simp only [pendconnGrabFromPx]
  split_ifs
  · exact ⟨_, rfl, h⟩
  · exact ⟨_, rfl, h⟩
  · have hstart : Kept none ((0 : ℕ) : ℤ) ((0 : ℕ) : ℤ) st := h
    obtain ⟨r, hr, hkept⟩ := hstart.grabLoop nowMs
      (srvDynamicMaxconn st.back.px now (st.back.srv srv)) srv _ (Nat.lt_succ_self _)
    rw [hr, Option.map_some]
    exact ⟨_, rfl, hkept.transferred⟩

theorem Kept.redistributeNode {srv : ι} {r : Queues σ ι L × ℕ}
    (h : Kept (some srv) r.2 r.2 r.1) (hmem : p ∈ (r.1.queue (some srv)).head.items) :
    Kept (some srv) (pendconnRedistributeNode r p).2 (pendconnRedistributeNode r p).2
        (pendconnRedistributeNode r p).1 ∧
      ∀ p' ≠ p, p' ∈ (r.1.queue (some srv)).head.items →
        p' ∈ ((pendconnRedistributeNode r p).1.queue (some srv)).head.items := by
  obtain ⟨pc, hp, hl, hh⟩ := h.waiting hmem
  simp only [pendconnRedistributeNode, hp]
  split_ifs
  · exact ⟨h, fun _ _ hmem' => hmem'⟩
  · have hout := h.unlinkSrv hp hl
    have hlinks := hout.kept.links.updPendconn hout.pendconn
      (f := fun pc => { pc with strmFlags := pc.strmFlags.unassign }) rfl rfl rfl rfl
    refine ⟨⟨hlinks, ?_⟩, fun p' hne hmem' => ?_⟩
    · push_cast
      exact hout.kept.tallied.other rfl rfl
    · exact (hout.mem_iff p' _).mpr ⟨hne, hmem'⟩

theorem Kept.foldl_redistribute {srv : ι} {l : List ℕ} (hn : l.Nodup) {r : Queues σ ι L × ℕ}
    (h : Kept (some srv) r.2 r.2 r.1) (hmem : ∀ p ∈ l, p ∈ (r.1.queue (some srv)).head.items) :
    Kept (some srv) (l.foldl pendconnRedistributeNode r).2
      (l.foldl pendconnRedistributeNode r).2 (l.foldl pendconnRedistributeNode r).1 := by
  induction l generalizing r with
  | nil => exact h
  | cons p l ih =>
    obtain ⟨hpl, hn⟩ := List.nodup_cons.mp hn
    obtain ⟨hkept, hrest⟩ := h.redistributeNode (hmem p List.mem_cons_self)
    refine ih hn hkept fun p' hp' => ?_
    exact hrest p' (fun hne => hpl (hne ▸ hp')) (hmem p' (List.mem_cons_of_mem p hp'))

/-- **`pendconn_redistribute` leaves right counters behind.** -/
theorem Kept.redistribute (h : Kept none 0 0 st) (srv : ι) :
    Kept none 0 0 (pendconnRedistribute st srv) := by
  have h' : Kept (some srv) ((0 : ℕ) : ℤ) ((0 : ℕ) : ℤ) st := ⟨h.links, h.tallied.settle _⟩
  simp only [pendconnRedistribute]
  split_ifs
  · exact h
  · have hkept := Kept.foldl_redistribute (r := (st, 0)) (h.links.nodup (some srv)) h' fun _ hp => hp
    exact hkept.transferred

/-! ### The functions of the stream -/

/-- **`pendconn_unlink` corrects both counters at once.** -/
theorem Kept.unlink (h : Kept none 0 0 st) (p : ℕ) : Kept none 0 0 (pendconnUnlink st p) := by
  rcases hp : st.pendconn p with - | pc
  · simpa [pendconnUnlink, hp] using h
  rcases hl : pc.leafP with - | q
  · simpa [pendconnUnlink, hp, hl] using h
  · have hq : pc.queue = q := h.links.queue p pc q hp hl
    have hkept : Kept q ((1 : ℕ) : ℤ) ((1 : ℕ) : ℤ) ((st.deleteNode p).updStrm pc.strm
        (Strm.moved pc.queue.isSome ((st.queue pc.queue).idx - pc.queueIdx))) := by
      refine ⟨(h.links.deleteNode hp hl).updStrm (pendPos_moved _ _ _), ?_⟩
      have htally := (h.tallied.settle q).deleteNode h.links hp hl
      exact htally.other rfl rfl
    simp only [pendconnUnlink, hp, hl, Option.isSome_some, if_true]
    rw [hq] at hkept ⊢
    exact hkept.transferred

omit [Fintype ι] in
theorem pendconn_unlink (st : Queues σ ι L) {pc : Pendconn σ ι} (hp : st.pendconn p = some pc) :
    (pendconnUnlink st p).pendconn p = some { pc with leafP := none } ∧
      ∀ s, ((pendconnUnlink st p).strm s).pendPos = (st.strm s).pendPos := by
  rcases hl : pc.leafP with - | q
  · refine ⟨?_, fun s => ?_⟩
    · simp only [pendconnUnlink, hp, hl, Option.isSome_none, Bool.false_eq_true, if_false]
      rw [← hl]
    · simp [pendconnUnlink, hp, hl]
  · simp only [pendconnUnlink, hp, hl, Option.isSome_some, if_true]
    rw [Links.deleteNode_eq hp hl]
    refine ⟨by simp [Queues.updQueue, Queues.updStrm, Queues.updPendconn, hp], fun s => ?_⟩
    by_cases hs : s = pc.strm
    · subst hs
      simp [Queues.updQueue, Queues.updStrm, Queues.updPendconn]
    · simp [Queues.updQueue, Queues.updStrm, Queues.updPendconn, hs]

theorem Kept.forget (h : Kept none 0 0 st) {strm : σ} (hpos : (st.strm strm).pendPos = some p)
    (hp : st.pendconn p = some pc) (hl : pc.leafP = none) {f : Strm ι → Strm ι}
    (hf : (f (st.strm strm)).pendPos = none) : Kept none 0 0 ((st.updStrm strm f).release p) := by
  have hown {s : σ} (hs : (st.strm s).pendPos = some p) : s = strm := by
    obtain ⟨pc₁, hp₁, rfl⟩ := h.links.owner s p hs
    obtain ⟨pc₂, hp₂, rfl⟩ := h.links.owner strm p hpos
    rw [Option.some.inj (hp₁.symm.trans hp₂)]
  have hstrm (s : σ) : ((st.updStrm strm f).strm s).pendPos
      = if s = strm then none else (st.strm s).pendPos := by
    by_cases hs : s = strm
    · subst hs
      simp [Queues.updStrm, hf]
    · simp [Queues.updStrm, hs]
  -- the stream that forgets is an owner less, so the links stay right
  have hlinks : Links (st.updStrm strm f) := by
    refine { h.links with owner := fun s p' hs => ?_ }
    rw [hstrm] at hs
    split_ifs at hs
    exact h.links.owner s p' hs
  refine ⟨hlinks.release hp hl fun s hs => ?_, h.tallied.other rfl rfl⟩
  rw [hstrm] at hs
  split_ifs at hs with hne
  exact hne (hown hs)

/-- **`pendconn_dequeue` keeps everything in order.** -/
theorem Kept.dequeue (h : Kept none 0 0 st) {strm : σ} {r : Queues σ ι L × Bool}
    (hr : pendconnDequeue st strm = some r) : Kept none 0 0 r.1 := by
  rcases hpos : (st.strm strm).pendPos with - | p
  · simp [pendconnDequeue, hpos] at hr
  rcases hp : st.pendconn p with - | pc
  · simp [pendconnDequeue, hpos, hp] at hr
  simp only [pendconnDequeue, hpos, hp] at hr
  split at hr
  · obtain rfl := Option.some.inj hr
    exact h
  · rename_i hl
    obtain rfl := Option.some.inj hr
    exact h.forget hpos hp (by simpa using hl) rfl

/-- **`pendconn_free` keeps everything in order.** -/
theorem Kept.free (h : Kept none 0 0 st) (strm : σ) : Kept none 0 0 (pendconnFree st strm) := by
  rcases hpos : (st.strm strm).pendPos with - | p
  · simpa [pendconnFree, hpos] using h
  · obtain ⟨pc, hp, -⟩ := h.links.owner strm p hpos
    obtain ⟨hp', hstrm⟩ := pendconn_unlink st hp
    simp only [pendconnFree, hpos]
    exact (h.unlink p).forget ((hstrm strm).trans hpos) hp' rfl rfl

end Kept

/-! ### Runs -/

section Runs

variable [DecidableEq σ] [DecidableEq ι]

structure Started (st : Queues σ ι L) : Prop where
  queue : ∀ q, st.queue q = Queue.init
  totpend : st.totpend = 0
  pendconn : ∀ p, st.pendconn p = none
  handed : st.handed = []
  pendPos : ∀ s, (st.strm s).pendPos = none

/-- A call of one of the functions.  Between two calls everything that belongs
to the servers, the proxy and the streams may change, except for the pending
position of a stream. -/
inductive QueueStep : Queues σ ι L → Queues σ ι L → Prop
  | add (st : Queues σ ι L) (nowMs : UInt32) (strm : σ) : QueueStep st (pendconnAdd nowMs st strm)
  | unlink (st : Queues σ ι L) (p : ℕ) (hp : (st.pendconn p).isSome = true) :
      QueueStep st (pendconnUnlink st p)
  | process {st st' : Queues σ ι L} {now : ℤ} {nowMs : UInt32} {srv : ι}
      (h : processSrvQueue now nowMs st srv = some st') : QueueStep st st'
  | redistribute (st : Queues σ ι L) (srv : ι) : QueueStep st (pendconnRedistribute st srv)
  | grab {st st' : Queues σ ι L} {now : ℤ} {nowMs : UInt32} {srv : ι}
      (h : pendconnGrabFromPx now nowMs st srv = some st') : QueueStep st st'
  | dequeue {st st' : Queues σ ι L} {strm : σ} {queued : Bool}
      (h : pendconnDequeue st strm = some (st', queued)) : QueueStep st st'
  | free (st : Queues σ ι L) (strm : σ) : QueueStep st (pendconnFree st strm)
  | other (st : Queues σ ι L) (b : Backend ι L) (strm : σ → Strm ι)
      (hpos : ∀ s, (strm s).pendPos = (st.strm s).pendPos) :
      QueueStep st { st with back := b, strm := strm }

variable [Fintype ι]

/-- No pending connection is lost, doubled or miscounted. -/
structure PendconnsConserved (st : Queues σ ι L) : Prop where
  /-- each pendconn is linked in at most one queue … -/
  one_queue : ∀ p q q', p ∈ (st.queue q).head.items → p ∈ (st.queue q').head.items → q = q'
  /-- … and not twice -/
  nodup : ∀ q, (st.queue q).head.items.Nodup
  length : ∀ q, (st.queue q).length = (st.queue q).head.items.length
  totpend : st.totpend = (st.queue none).length + ∑ srv, (st.queue (some srv)).length
  /-- each pendconn is handed to at most one server, … -/
  handed : (st.handed.map Prod.fst).Nodup
  /-- … which is the one its stream will find in it -/
  target : ∀ p pc srv, st.pendconn p = some pc → (pc.target = some srv ↔ (p, srv) ∈ st.handed)

variable {st st' : Queues σ ι L}

omit [DecidableEq σ] in
theorem Started.kept (h : Started st) : Kept none 0 0 st := by
  have hsize (q : Option ι) : st.size q = 0 := by
    rw [Queues.size, h.queue q]
    rfl
  refine ⟨⟨?_, ?_, ?_, ?_, ?_, ?_, ?_, ?_⟩, ⟨fun q => ?_, ?_⟩⟩
  · intro p q
    rw [h.queue q]
    simp [Queue.init, h.pendconn]
  · intro q
    rw [h.queue q]
    exact List.nodup_nil
  · intro p pc q hp
    simp [h.pendconn] at hp
  · intro p pc hp
    simp [h.pendconn] at hp
  · intro p pc s hp
    simp [h.pendconn] at hp
  · rw [h.handed]
    exact List.nodup_nil
  · intro p _
    simp [h.pendconn, h.handed]
  · intro s p hs
    simp [h.pendPos] at hs
  · rw [hsize, h.queue q]
    simp [Queue.init]
  · simp [hsize, h.totpend]

theorem Kept.step (h : Kept none 0 0 st) (hstep : QueueStep st st') : Kept none 0 0 st' := by
  cases hstep with
  | add nowMs strm => exact ⟨h.links.add nowMs strm, h.tallied.add nowMs strm⟩
  | unlink p _ => exact h.unlink p
  | process hr =>
    obtain ⟨st₁, hr₁, hkept⟩ := h.processSrvQueue _ _ _
    obtain rfl := Option.some.inj (hr₁.symm.trans hr)
    exact hkept
  | redistribute srv => exact h.redistribute srv
  | grab hr =>
    obtain ⟨st₁, hr₁, hkept⟩ := h.grabFromPx _ _ _
    obtain rfl := Option.some.inj (hr₁.symm.trans hr)
    exact hkept
  | dequeue hr => exact h.dequeue hr
  | free strm => exact h.free strm
  | other b strm hpos =>
    exact ⟨h.links.other (fun _ => rfl) rfl rfl rfl hpos, h.tallied.other rfl rfl⟩

omit [DecidableEq σ] in
theorem Kept.conserved (h : Kept none 0 0 st) : PendconnsConserved st := by
  have hlength (q : Option ι) : (st.queue q).length = (st.queue q).head.items.length := by
    simpa [Queues.size] using h.tallied.length q
  refine ⟨?_, h.links.nodup, hlength, ?_, h.links.handed, h.links.target⟩
  · intro p q q' hq hq'
    obtain ⟨pc, hp, hl⟩ := (h.links.mem_iff p q).mp hq
    obtain ⟨pc', hp', hl'⟩ := (h.links.mem_iff p q').mp hq'
    obtain rfl := Option.some.inj (hp.symm.trans hp')
    exact Option.some.inj (hl.symm.trans hl')
  · have htot := h.tallied.totpend
    rw [Fintype.sum_option, add_zero] at htot
    simp only [hlength]
    exact htot

/-- **Pending connections are conserved**: over any interleaving of the functions,
from a state where nothing is queued; and `process_srv_queue` and
`pendconn_grab_from_px` always return. -/
theorem pendconns_conserved {st₀ st : Queues σ ι L} (h₀ : Started st₀)
    (hrun : Relation.ReflTransGen QueueStep st₀ st) :
    PendconnsConserved st ∧ ∀ now nowMs srv,
      (processSrvQueue now nowMs st srv).isSome = true ∧
        (pendconnGrabFromPx now nowMs st srv).isSome = true := by
  have hkept : Kept none 0 0 st := by
    induction hrun with
    | refl => exact h₀.kept
    | tail _ hstep ih => exact ih.step hstep
  refine ⟨hkept.conserved, fun now nowMs srv => ⟨?_, ?_⟩⟩
  · obtain ⟨st', hr, -⟩ := hkept.processSrvQueue now nowMs srv
    rw [hr]
    rfl
  · obtain ⟨st', hr, -⟩ := hkept.grabFromPx now nowMs srv
    rw [hr]
    rfl

end Runs

/-- A proxy with one server that takes one connection at a time, and two
streams. -/
def oneAtATime : Queues Bool Unit Unit where
  back :=
    { srv := fun _ => { serverS1 with maxconn := 1, minconn := 1 }
      px := newProxy [()] nodup_unit }
  redisp := false
  persist := false
  track := fun _ => none
  takeConn := none
  queue := fun _ => .init
  totpend := 0
  strm := fun _ => ⟨⟨false, true, false, false⟩, some (), none, none, 0, 0, 0, 0⟩
  pendconn := fun _ => none
  allocated := 0
  handed := []

/-- Both streams wait for the server, and it takes the first one. -/
theorem pendconns_conserved_oneAtATime :
    ∃ st, processSrvQueue 0 0 (pendconnAdd 0 (pendconnAdd 0 oneAtATime false) true) () = some st ∧
      st.handed = [(0, ())] ∧ st.totpend = 1 ∧ PendconnsConserved st := by
  have hrun : (processSrvQueue 0 0 (pendconnAdd 0 (pendconnAdd 0 oneAtATime false) true) ()).map
      (fun st => (st.handed, st.totpend)) = some ([(0, ())], 1) := by decide
  obtain ⟨st, hr, hst⟩ := Option.map_eq_some_iff.mp hrun
  obtain ⟨hhanded, htotpend⟩ := Prod.mk.inj hst
  have hstart : Started oneAtATime := ⟨fun _ => rfl, rfl, fun _ => rfl, rfl, fun _ => rfl⟩
  have hsteps : Relation.ReflTransGen QueueStep oneAtATime st :=
    ((Relation.ReflTransGen.single (.add _ 0 false)).tail (.add _ 0 true)).tail (.process hr)
  exact ⟨st, hr, hhanded, htotpend, (pendconns_conserved hstart hsteps).1⟩

end SmartHAProxy
