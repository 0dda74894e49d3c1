/-
Dequeuing is work-conserving, where the two limits agree (queue.c, haproxy/queue.h).

`may_dequeue_tasks` decides whether `process_srv_queue` is worth calling.  Both know the limit
of the server, but the loop of the latter knows neither that a `maxconn` of 0 means no limit
nor that the limit is unsigned.  `Kept.drain`: the loop takes as many pendconns as there are,
or as there is room for below its own limit.
-/
import SmartHAProxy.Lib.Circle
import SmartHAProxy.Queue.Order
import SmartHAProxy.Queue.Runs

namespace SmartHAProxy

variable {σ ι L : Type*}

/-! ### Words as integers -/

theorem toInt32_lt_iff {served limit : UInt32} (h : served.toNat < 2 ^ 31) :
    served.toInt32 < limit.toInt32 ↔ limit.toNat < 2 ^ 31 ∧ served.toNat < limit.toNat := by
  have hlt := limit.toNat_lt
  rw [Int32.lt_iff_toInt_lt, toInt_toInt32, toInt_toInt32, if_pos h]
  split_ifs <;> omega

/-! ### The two predicates -/

/-- `may_dequeue_tasks`; `curSess` is `cur_sess` of the server. -/
def mayDequeueTasks (now : ℤ) (st : Queues σ ι L) (srv : ι) (curSess : UInt32) : Bool :=
  ((st.queue (some srv)).length ≠ 0 ||
      ((st.queue none).length ≠ 0 && (st.back.srv srv).currentlyUsable)) &&
    ((st.back.srv srv).maxconn = 0 ||
      curSess < srvDynamicMaxconn st.back.px now (st.back.srv srv))

theorem mayDequeueTasks_iff (now : ℤ) (st : Queues σ ι L) (srv : ι) (curSess : UInt32) :
    mayDequeueTasks now st srv curSess = true ↔
      ((st.queue (some srv)).length ≠ 0 ∨
        (st.queue none).length ≠ 0 ∧ (st.back.srv srv).currentlyUsable = true) ∧
      ((st.back.srv srv).maxconn = 0 ∨
        curSess < srvDynamicMaxconn st.back.px now (st.back.srv srv)) := by
  unfold mayDequeueTasks
  simp only [Bool.and_eq_true, Bool.or_eq_true, decide_eq_true_iff]

/-- `px_ok` of `process_srv_queue`: the server may take requests of the proxy. -/
def Queues.pxOk [DecidableEq ι] (st : Queues σ ι L) (srv : ι) : Bool :=
  (st.back.srv ((st.track srv).getD srv)).currentlyUsable && st.electable srv

/-- The number of pendconns that the server may take. -/
def Queues.takeable (st : Queues σ ι L) (srv : ι) (pxOk : Bool) : ℕ :=
  st.size (some srv) + if pxOk then st.size none else 0

section Dequeue

variable [DecidableEq σ] [DecidableEq ι]

omit [DecidableEq ι] in
theorem back_assign (st : Queues σ ι L) (p : ℕ) (srv : ι) :
    (pendconnAssign st p srv).back = st.back := by
  rw [pendconnAssign]
  dsimp only
  split <;> rfl

theorem back_unlinkNode (inServer : Bool) (st : Queues σ ι L) (p : ℕ) :
    (pendconnUnlinkNode inServer st p).back = st.back := by
  rw [pendconnUnlinkNode]
  cases st.pendconn p with
  | none => rfl
  | some pc =>
    dsimp only
    rw [Queues.deleteNode]
    split <;> rfl

theorem back_processNextStrm {nowMs : UInt32} {st st' : Queues σ ι L} {srv : ι} {pxOk : Bool}
    (hr : pendconnProcessNextStrm nowMs st srv pxOk = some st') : st'.back = st.back := by
  have huseP (p : ℕ) : ((pendconnUnlinkSrv (pendconnAssign st p srv) p).updQueue (some srv)
      Queue.advance).back = st.back := by
    show (pendconnUnlinkSrv (pendconnAssign st p srv) p).back = _
    rw [pendconnUnlinkSrv, back_unlinkNode, back_assign]
  have husePp (p : ℕ) : ((pendconnAssign (pendconnUnlinkPrx st p) p srv).updQueue none
      Queue.advance).back = st.back := by
    show (pendconnAssign (pendconnUnlinkPrx st p) p srv).back = _
    rw [back_assign, pendconnUnlinkPrx, back_unlinkNode]
  simp only [pendconnProcessNextStrm] at hr
  split at hr
  · cases hr
  · obtain rfl := Option.some.inj hr
    exact huseP _
  · obtain rfl := Option.some.inj hr
    exact husePp _
  · split_ifs at hr
    · obtain rfl := Option.some.inj hr
      exact huseP _
    · obtain rfl := Option.some.inj hr
      exact husePp _

variable [Fintype ι] {st : Queues σ ι L} {owed : ℤ}

theorem Kept.size_proxy {st' : Queues σ ι L} {nowMs : UInt32} {srv : ι}
    (h : Kept none 0 owed st) (hr : pendconnProcessNextStrm nowMs st srv false = some st') :
    st'.size none = st.size none := by
  have h' : Kept (some srv) 0 owed st := ⟨h.links, h.tallied.settle _⟩
  simp only [pendconnProcessNextStrm, Bool.false_eq_true, false_and, if_false] at hr
  split at hr
  · cases hr
  · rename_i n hn _
    have hfirst : pendconnFirst nowMs (st.queue (some srv)).head = some n := by
      split_ifs at hn
      exact hn
    obtain ⟨pc, hp, hl, hh⟩ := h'.waiting (pendconnFirst_mem hfirst)
    have hout := h'.unlinkSrv hp hl
    obtain ⟨-, hsize⟩ := hout.assign rfl hh srv
    obtain rfl := Option.some.inj hr
    rw [unlinkSrv_assign hp hl, hsize, hout.size_other none (by simp)]
  · rename_i hn
    cases hn
  · rename_i hn
    cases hn

/-- **One turn**: a pendconn is handed to the server if it may take one. -/
theorem Kept.turn (nowMs : UInt32) (srv : ι) (pxOk : Bool) (h : Kept none 0 owed st) :
    match pendconnProcessNextStrm nowMs st srv pxOk with
    | none => st.takeable srv pxOk = 0
    | some st' => Kept none 0 (owed + 1) st' ∧ st'.back = st.back ∧
        st'.handed.length = st.handed.length + 1 ∧
        st'.takeable srv pxOk + 1 = st.takeable srv pxOk ∧
        st'.size (some srv) + st'.size none + 1 = st.size (some srv) + st.size none := by
  have hspec := processNextStrm_spec nowMs st srv pxOk
  have hlength (q : Option ι) : (st.queue q).length = st.size q := by
    have hq := h.tallied.length q
    rw [ite_self, Int.add_zero] at hq
    exact hq
  have hnodes (q : Option ι) : st.size q = (st.queue q).head.nodes.length := List.length_map ..
  cases hr : pendconnProcessNextStrm nowMs st srv pxOk with
  | none =>
    rw [hr] at hspec
    have hempty (q : Option ι) (hq : q = some srv ∨ q = none ∧ pxOk = true) : st.size q = 0 := by
      by_contra hne
      have hnil := hspec q ⟨hq, by rw [hlength]; exact Int.natCast_ne_zero.mpr hne⟩
      exact hne ((hnodes q).trans (congrArg List.length hnil))
    show st.size (some srv) + (if pxOk = true then st.size none else 0) = 0
    rw [hempty (some srv) (.inl rfl)]
    split_ifs with hok
    · rw [hempty none (.inr ⟨rfl, hok⟩)]
    · rfl
  | some st' =>
    rw [hr] at hspec
    obtain ⟨q, n, -, hhanded⟩ := hspec
    obtain ⟨hkept, hsize⟩ := h.processNextStrm hr
    refine ⟨hkept, back_processNextStrm hr, ?_, ?_, hsize⟩
    · rw [hhanded, List.length_append, List.length_singleton]
    · show st'.size (some srv) + (if pxOk = true then st'.size none else 0) + 1 =
        st.size (some srv) + (if pxOk = true then st.size none else 0)
      cases pxOk with
      | true => exact hsize
      | false =>
        have hproxy := h.size_proxy hr
        rw [if_neg Bool.false_ne_true, if_neg Bool.false_ne_true]
        omega

/-- **The loop takes as many pendconns as there are or as there is room for**, below the limit
as a signed number. -/
theorem Kept.drain (nowMs maxconn : UInt32) (srv : ι) (pxOk : Bool) (fuel : ℕ)
    {st : Queues σ ι L} {done : ℕ} (h : Kept none 0 done st)
    (hfuel : st.size (some srv) + st.size none < fuel)
    (hserved : (st.back.srv srv).served.toNat < 2 ^ 31) :
    ∃ st' k,
      SmartHAProxy.processSrvQueueLoop nowMs srv maxconn pxOk fuel st done =
        some (st', done + k) ∧
      k = min (st.takeable srv pxOk)
        (if maxconn.toNat < 2 ^ 31 then maxconn.toNat - (st.back.srv srv).served.toNat else 0) ∧
      st'.handed.length = st.handed.length + k ∧
      st'.takeable srv pxOk + k = st.takeable srv pxOk ∧
      st'.back.px = st.back.px ∧
      ∃ served, st'.back.srv srv = { st.back.srv srv with served := served } ∧
        served.toNat = (st.back.srv srv).served.toNat + k := by
  induction fuel generalizing st done with
  | zero => exact absurd hfuel (Nat.not_lt_zero _)
  | succ fuel ih =>
    rw [SmartHAProxy.processSrvQueueLoop]
    -- the comparison of the loop is signed
    by_cases hlt : (st.back.srv srv).served.toInt32 < maxconn.toInt32
    · obtain ⟨hmax, hroom⟩ := (toInt32_lt_iff hserved).mp hlt
      have hturn := h.turn nowMs srv pxOk
      rw [if_pos hlt, if_pos hmax]
      cases hr : pendconnProcessNextStrm nowMs st srv pxOk with
      | none =>
        rw [hr] at hturn
        have hzero : st.takeable srv pxOk = 0 := hturn
        exact ⟨st, 0, rfl, by rw [hzero, Nat.zero_min], rfl, rfl, rfl, _, rfl, rfl⟩
      | some st₁ =>
        rw [hr] at hturn
        obtain ⟨hkept, hback, hhanded, htake, hsize⟩ := hturn
        have hback' : (st₁.incServed srv).back =
            st.back.updSrv srv fun s => { s with served := s.served + 1 } := by
          rw [← hback]
          rfl
        have hserver : (st₁.incServed srv).back.srv srv =
            { st.back.srv srv with served := (st.back.srv srv).served + 1 } := by
          rw [hback', Backend.updSrv_srv_self]
        have hinc : ((st.back.srv srv).served + 1).toNat =
            (st.back.srv srv).served.toNat + 1 := by
          rw [UInt32.toNat_add]
          exact Nat.mod_eq_of_lt (show _ + 1 < 2 ^ 32 by omega)
        have hnext : Kept none 0 ((done + 1 : ℕ) : ℤ) (st₁.incServed srv) := by
          push_cast
          exact hkept.withBack _
        obtain ⟨st', k, hloop, hk, hhanded', htake', hpx, served, hsrv, hsum⟩ := ih hnext
          (show st₁.size (some srv) + st₁.size none < fuel by omega)
          (by rw [hserver]; show UInt32.toNat (_ + 1) < _; omega)
        rw [hserver] at hk hsrv hsum
        rw [if_pos hmax] at hk
        -- `incServed` changes none of the counts
        replace hhanded' : st'.handed.length = st₁.handed.length + k := hhanded'
        replace htake' : st'.takeable srv pxOk + k = st₁.takeable srv pxOk := htake'
        replace hk : k = min (st₁.takeable srv pxOk)
          (maxconn.toNat - ((st.back.srv srv).served + 1).toNat) := hk
        replace hsum : served.toNat = ((st.back.srv srv).served + 1).toNat + k := hsum
        rw [hinc] at hk hsum
        refine ⟨st', k + 1, ?_, by omega, by omega, by omega, ?_, served, hsrv, by omega⟩
        · show SmartHAProxy.processSrvQueueLoop nowMs srv maxconn pxOk fuel _ _ = _
          rw [hloop, Nat.add_assoc, Nat.add_comm 1 k]
        · rw [hpx, hback', Backend.updSrv_px]
    · have hroom := mt (toInt32_lt_iff hserved).mpr hlt
      refine ⟨st, 0, if_neg hlt, ?_, rfl, rfl, rfl, _, rfl, rfl⟩
      split_ifs with hmax
      · have hle : maxconn.toNat - (st.back.srv srv).served.toNat = 0 := by omega
        rw [hle, Nat.min_zero]
      · rw [Nat.min_zero]

/-! ### The whole function -/

/-- `process_srv_queue` hands out a pendconn at least; when it returns, there is nothing left that
the server may take, or the server has a limit and has reached it. -/
def WorkConserving (now : ℤ) (nowMs : UInt32) (st : Queues σ ι L) (srv : ι) : Prop :=
  ∃ st', processSrvQueue now nowMs st srv = some st' ∧ st.handed.length < st'.handed.length ∧
    (st'.takeable srv (st.pxOk srv) = 0 ∨ (st'.back.srv srv).maxconn ≠ 0 ∧
      srvDynamicMaxconn st'.back.px now (st'.back.srv srv) ≤ (st'.back.srv srv).served)

omit [DecidableEq σ] [DecidableEq ι] [Fintype ι] in
theorem processSrvQueueEnd_frame (srv : ι) (st : Queues σ ι L) (done : ℕ) :
    (processSrvQueueEnd srv st done).handed = st.handed ∧
      (processSrvQueueEnd srv st done).queue = st.queue ∧
      (processSrvQueueEnd srv st done).back.srv = st.back.srv ∧
      (processSrvQueueEnd srv st done).back.px.beconn = st.back.px.beconn ∧
      (processSrvQueueEnd srv st done).back.px.fullconn = st.back.px.fullconn := by
  rw [processSrvQueueEnd]
  split_ifs
  · exact ⟨rfl, rfl, rfl, rfl, rfl⟩
  · dsimp only
    split <;> exact ⟨rfl, rfl, rfl, rfl, rfl⟩

omit [DecidableEq σ] [DecidableEq ι] [Fintype ι] in
theorem srvDynamicMaxconn_congr {px px' : Proxy ι L} (now : ℤ) {s : Server} (served : UInt32)
    (hbeconn : px'.beconn = px.beconn) (hfullconn : px'.fullconn = px.fullconn) :
    srvDynamicMaxconn px' now { s with served := served } = srvDynamicMaxconn px now s := by
  unfold srvDynamicMaxconn
  rw [hbeconn, hfullconn]

/-- **What `process_srv_queue` does**: it hands out `k` pendconns. -/
theorem Kept.processSrvQueue_spec (h : Kept none 0 0 st) (now : ℤ) (nowMs : UInt32) (srv : ι)
    (hserved : (st.back.srv srv).served.toNat < 2 ^ 31) :
    ∃ st' k, SmartHAProxy.processSrvQueue now nowMs st srv = some st' ∧
      k = min (st.takeable srv (st.pxOk srv))
        (if (srvDynamicMaxconn st.back.px now (st.back.srv srv)).toNat < 2 ^ 31
          then (srvDynamicMaxconn st.back.px now (st.back.srv srv)).toNat -
            (st.back.srv srv).served.toNat
          else 0) ∧
      st'.handed.length = st.handed.length + k ∧
      st'.takeable srv (st.pxOk srv) + k = st.takeable srv (st.pxOk srv) ∧
      (st'.back.srv srv).maxconn = (st.back.srv srv).maxconn ∧
      (st'.back.srv srv).served.toNat = (st.back.srv srv).served.toNat + k ∧
      srvDynamicMaxconn st'.back.px now (st'.back.srv srv) =
        srvDynamicMaxconn st.back.px now (st.back.srv srv) := by
  have hstart : Kept none 0 ((0 : ℕ) : ℤ) st := h
  obtain ⟨st₁, k, hloop, hk, hhanded, htake, hpx, served, hsrv, hsum⟩ := hstart.drain nowMs
    (srvDynamicMaxconn st.back.px now (st.back.srv srv)) srv (st.pxOk srv) _ (Nat.lt_succ_self _)
    hserved
  obtain ⟨hhanded', hqueue, hsrv', hbeconn, hfullconn⟩ := processSrvQueueEnd_frame srv st₁ (0 + k)
  have hsrv₂ := (congrFun hsrv' srv).trans hsrv
  refine ⟨SmartHAProxy.processSrvQueueEnd srv st₁ (0 + k), k, ?_, hk, ?_, ?_, ?_, ?_, ?_⟩
  · rw [SmartHAProxy.processSrvQueue]
    exact congrArg (Option.map _) hloop
  · rw [hhanded', hhanded]
  · rw [← htake]
    simp only [Queues.takeable, Queues.size, hqueue]
  · rw [hsrv₂]
  · rw [hsrv₂]
    exact hsum
  · rw [hsrv₂]
    rw [hpx] at hbeconn hfullconn
    exact srvDynamicMaxconn_congr now served hbeconn hfullconn

/-- **Dequeuing is work-conserving**, when `may_dequeue_tasks` asks for it, if and only if the
queue of the server is not empty or the server it tracks is usable, the limit is below 2^31,
and a server without a limit does not need one: all that it may take fits below the limit that
the loop has for it. -/
theorem processSrvQueue_conserving_iff (h : Kept none 0 0 st) (now : ℤ) (nowMs : UInt32) (srv : ι)
    (hmay : mayDequeueTasks now st srv (st.back.srv srv).served = true)
    (hbackup : (st.back.srv srv).backup = false)
    (hserved : (st.back.srv srv).served.toNat < 2 ^ 31) :
    WorkConserving now nowMs st srv ↔
      ((st.queue (some srv)).length ≠ 0 ∨
        (st.back.srv ((st.track srv).getD srv)).currentlyUsable = true) ∧
      (srvDynamicMaxconn st.back.px now (st.back.srv srv)).toNat < 2 ^ 31 ∧
      ((st.back.srv srv).maxconn = 0 →
        (st.back.srv srv).served.toNat + st.takeable srv (st.pxOk srv) ≤
          (srvDynamicMaxconn st.back.px now (st.back.srv srv)).toNat) := by
  obtain ⟨st', k, hrun, hk, hhanded, htake, hmaxconn, hsum, hlimit⟩ :=
    h.processSrvQueue_spec now nowMs srv hserved
  have hdequeue := (mayDequeueTasks_iff now st srv _).mp hmay
  have hlength (q : Option ι) : (st.queue q).length = st.size q := by
    have hq := h.tallied.length q
    rw [ite_self, Int.add_zero] at hq
    exact hq
  -- there is something to take, unless only the tracked server forbids it
  have hsome : 0 < st.takeable srv (st.pxOk srv) ↔ (st.queue (some srv)).length ≠ 0 ∨
      (st.back.srv ((st.track srv).getD srv)).currentlyUsable = true := by
    have hpxOk : st.pxOk srv = (st.back.srv ((st.track srv).getD srv)).currentlyUsable := by
      rw [Queues.pxOk, Queues.electable, hbackup]
      exact Bool.and_true _
    have hwaits : st.size (some srv) ≠ 0 ∨ st.size none ≠ 0 := by
      rcases hdequeue.1 with hown | ⟨hproxy, -⟩
      · rw [hlength] at hown
        exact .inl (Int.natCast_ne_zero.mp hown)
      · rw [hlength] at hproxy
        exact .inr (Int.natCast_ne_zero.mp hproxy)
    rw [hpxOk, Queues.takeable, hlength, Int.natCast_ne_zero]
    cases (st.back.srv ((st.track srv).getD srv)).currentlyUsable with
    | true =>
      rw [if_pos rfl]
      exact ⟨fun _ => .inr rfl, fun _ => by omega⟩
    | false =>
      rw [if_neg Bool.false_ne_true]
      exact ⟨fun hpos => .inl (by omega), fun hor => Nat.pos_of_ne_zero
        (hor.resolve_right Bool.false_ne_true)⟩
  have hroom : (st.back.srv srv).maxconn ≠ 0 → (st.back.srv srv).served.toNat <
      (srvDynamicMaxconn st.back.px now (st.back.srv srv)).toNat := by
    intro hne
    exact UInt32.lt_iff_toNat_lt.mp (hdequeue.2.resolve_left hne)
  have hiff : WorkConserving now nowMs st srv ↔ 0 < k ∧
      (st'.takeable srv (st.pxOk srv) = 0 ∨ (st.back.srv srv).maxconn ≠ 0 ∧
        (srvDynamicMaxconn st.back.px now (st.back.srv srv)).toNat ≤
          (st.back.srv srv).served.toNat + k) := by
    have hdone : (st.handed.length < st'.handed.length ∧
        (st'.takeable srv (st.pxOk srv) = 0 ∨ (st'.back.srv srv).maxconn ≠ 0 ∧
          srvDynamicMaxconn st'.back.px now (st'.back.srv srv) ≤ (st'.back.srv srv).served)) ↔
        0 < k ∧ (st'.takeable srv (st.pxOk srv) = 0 ∨ (st.back.srv srv).maxconn ≠ 0 ∧
        (srvDynamicMaxconn st.back.px now (st.back.srv srv)).toNat ≤
          (st.back.srv srv).served.toNat + k) := by
      rw [hlimit, hmaxconn, UInt32.le_iff_toNat_le, hsum, hhanded]
      exact and_congr_left fun _ => by omega
    constructor
    · rintro ⟨st'', hrun', hwork⟩
      obtain rfl := Option.some.inj (hrun.symm.trans hrun')
      exact hdone.mp hwork
    · exact fun hwork => ⟨st', hrun, hdone.mpr hwork⟩
  rw [hiff, ← hsome]
  generalize st.takeable srv (st.pxOk srv) = takeable at hk htake ⊢
  generalize (srvDynamicMaxconn st.back.px now (st.back.srv srv)).toNat = limit at hk hroom ⊢
  by_cases hzero : (st.back.srv srv).maxconn = 0
  · simp only [hzero, ne_eq, not_true_eq_false, false_and, or_false, true_implies]
    split_ifs at hk <;> omega
  · have hlt := hroom hzero
    simp only [hzero, ne_eq, not_false_eq_true, true_and, false_implies, and_true]
    split_ifs at hk <;> omega

end Dequeue

/-- One stream waits for a server that takes one connection at a time. -/
theorem processSrvQueue_conserving_oneAtATime :
    WorkConserving 0 0 (pendconnAdd 0 oneAtATime false) () := by
  have hstart : Started oneAtATime := ⟨fun _ => rfl, rfl, fun _ => rfl, rfl, fun _ => rfl⟩
  have hkept : Kept none 0 0 (pendconnAdd 0 oneAtATime false) := hstart.kept.step (.add _ 0 false)
  apply (processSrvQueue_conserving_iff hkept 0 0 () (by decide) (by decide) (by decide)).mpr
  exact ⟨.inl (by decide), by decide, fun h => absurd h (by decide)⟩

/-- The same stream, and the server has a weight and no limit any more. -/
def unlimited : Queues Bool Unit Unit :=
  { pendconnAdd 0 oneAtATime false with
    back := oneAtATime.back.updSrv () fun s =>
      { s with maxconn := 0, minconn := 0, curEweight := 1, curState := .running } }

theorem not_processSrvQueue_conserving :
    ¬ ∀ (st : Queues Bool Unit Unit), Kept none 0 0 st →
      mayDequeueTasks 0 st () (st.back.srv ()).served = true →
      (st.back.srv ()).currentlyUsable = true → (st.back.srv ()).backup = false →
      WorkConserving 0 0 st () := by
  intro h
  have hstart : Started oneAtATime := ⟨fun _ => rfl, rfl, fun _ => rfl, rfl, fun _ => rfl⟩
  have hkept : Kept none 0 0 (pendconnAdd 0 oneAtATime false) := hstart.kept.step (.add _ 0 false)
  obtain ⟨st', hrun, hhanded, -⟩ :=
    h unlimited (hkept.withBack _) (by decide) (by decide) (by decide)
  -- the loop does not take a single pendconn
  have hnone : (processSrvQueue 0 0 unlimited ()).map (fun st => st.handed.length) = some 0 := by
    decide
  rw [hrun] at hnone
  have hzero : st'.handed.length = 0 := Option.some.inj hnone
  rw [hzero] at hhanded
  exact Nat.not_lt_zero _ hhanded

end SmartHAProxy
