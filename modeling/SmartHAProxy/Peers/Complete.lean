/-
Lessons come to an end.

In each stage the place in the tree goes forward, so that as many messages as there are
entries complete it (`uses_teachLoop`), and one call with room enough completes the
lesson from wherever it has come to.  When a tree holds the last number, its first stage
finds an update for ever, and no call gets past it (`Endless`).
-/
import Mathlib.Data.List.Induction
import SmartHAProxy.Peers.Lesson

namespace SmartHAProxy

variable {τ ι : Type} [DecidableEq τ]

/-! ### Room for a lesson -/

def EbUniq.ahead {ι : Type} (t : EbUniq UInt32 ι) (k : UInt32) : List (UInt32 × ι) :=
  t.nodes.filter fun n => k ≤ n.1

theorem EbUniq.length_ahead_succ {ι : Type} {t : EbUniq UInt32 ι} {k : UInt32} {n : UInt32 × ι}
    (h : t.lookupGe k = some n) (hmax : n.1 ≠ 4294967295) :
    (t.ahead (n.1 + 1)).length + 1 ≤ (t.ahead k).length := by
  have hsucc : n.1 < n.1 + 1 := by
    rw [UInt32.lt_iff_toNat_lt, UInt32.toNat_add]
    have hn := n.1.toNat_lt
    have hne : n.1.toNat ≠ 4294967295 := fun heq => hmax (UInt32.toNat_inj.mp heq)
    have h1 : (1 : UInt32).toNat = 1 := rfl
    omega
  obtain ⟨hmem, hk, -⟩ := lookupGe_some h
  have hsub : (t.ahead (n.1 + 1)).Sublist (t.ahead k) := by
    apply List.monotone_filter_right
    intro m hm
    exact decide_eq_true ((hk.trans hsucc.le).trans (of_decide_eq_true hm))
  -- the node itself is not ahead any more
  refine lt_of_le_of_ne hsub.length_le fun heq => ?_
  have hback : n ∈ t.ahead (n.1 + 1) := by
    rw [hsub.eq_of_length heq]
    exact List.mem_filter.mpr ⟨hmem, decide_eq_true hk⟩
  exact absurd (of_decide_eq_true (List.mem_filter.mp hback).2) (not_le.mpr hsucc)

section Room

variable {order : List τ} {T : τ → EbUniq UInt32 ι} {O : τ → UInt32} {r : Learner τ ι} {F : Bool}
  {p : Peer τ ι} {h : List (PeerMsg τ ι)} {i : τ}

theorem uses_teachLoop {lookup : SharedTable ι → Option (UInt32 × ι) × SharedTable ι}
    {C done : SharedTable ι → Prop} (hlook : Looks lookup C done)
    (hC : ∀ st u, C st → C { st with lastPushed := u })
    (hmax : ∀ n ∈ (T i).nodes, n.1 ≠ 4294967295) (room : ℕ) :
    ∀ (p : Peer τ ι) (newPushed : Bool), (p.tables i).updates = T i → C (p.tables i) →
      ((T i).ahead ((p.tables i).lastPushed + 1)).length ≤ room →
      ∃ room', (p.teachLoop lookup i newPushed room).room = some room' ∧
        room ≤ room' + ((T i).ahead ((p.tables i).lastPushed + 1)).length := by
  induction room with
  | zero =>
    intro p newPushed hT hCp hle
    rcases hlook (p.tables i) hCp with ⟨n, -, hge⟩ | ⟨st, hst, -⟩
    · rw [hT] at hge
      have hless := EbUniq.length_ahead_succ hge (hmax n (EbUniq.lookupGe_some hge).1)
      omega
    · rw [Peer.teachLoop_none hst]
      exact ⟨0, rfl, by omega⟩
  | succ room ih =>
    intro p newPushed hT hCp hle
    rcases hlook (p.tables i) hCp with ⟨n, hn, hge⟩ | ⟨st, hst, -⟩
    · rw [hT] at hge
      have hless := EbUniq.length_ahead_succ hge (hmax n (EbUniq.lookupGe_some hge).1)
      rw [Peer.teachLoop_push hn]
      obtain ⟨room', hroom, hbound⟩ := ih (p.setTable i { p.tables i with lastPushed := n.1 }) false
        (by rwa [Peer.tables_setTable_self]) (by rw [Peer.tables_setTable_self]; exact hC _ _ hCp)
        (by rw [Peer.tables_setTable_self]; dsimp only; omega)
      rw [Peer.tables_setTable_self] at hbound
      dsimp only at hbound
      exact ⟨room', hroom, by omega⟩
    · rw [Peer.teachLoop_none hst]
      exact ⟨room + 1, rfl, by omega⟩

omit [DecidableEq τ] in
theorem length_ahead_le (i : τ) (k : UInt32) : ((T i).ahead k).length ≤ (T i).nodes.length :=
  List.length_filter_le _ _

theorem uses_sendTeachmsgs {lookup : SharedTable ι → Option (UInt32 × ι) × SharedTable ι}
    {C done : SharedTable ι → Prop} (hlook : Looks lookup C done)
    (hC : ∀ st u, C st → C { st with lastPushed := u })
    (hmax : ∀ n ∈ (T i).nodes, n.1 ≠ 4294967295) (hi : i ∈ order) :
    Sender.Uses (fun p h => Lesson order T O r noTable F p h ∧ C (p.tables i))
      (Peer.sendTeachmsgs lookup i) (1 + (T i).nodes.length) := by
  refine Sender.Uses.seq (keeps_sendSwitchmsg hi C) (Sender.Uses.skipIf Sender.Uses.put) ?_
  intro p h room hp hle
  have hbound := length_ahead_le (T := T) i ((p.tables i).lastPushed + 1)
  obtain ⟨room', hroom, hused⟩ := uses_teachLoop hlook hC hmax room p true (hp.1.taught i).updates
    hp.2 (by omega)
  exact ⟨room', hroom, by omega⟩

theorem uses_teachTable (hmax : ∀ n ∈ (T i).nodes, n.1 ≠ 4294967295) (hi : i ∈ order) :
    Sender.Uses (Lesson order T O r noTable F) (Peer.teachTable i)
      ((1 + (T i).nodes.length) + (1 + (T i).nodes.length)) := by
  obtain ⟨hfirst, hstage1⟩ := keeps_stage1 (T := T) (O := O) (r := r) (D := noTable) (F := F) hi
  have huses1 := uses_sendTeachmsgs (T := T) (O := O) (r := r) (F := F) looks_stage1
    (fun _ _ _ => trivial) hmax hi
  have huses2 := uses_sendTeachmsgs (T := T) (O := O) (r := r) (F := F) looks_stage2
    (fun _ _ hs => hs) hmax hi
  refine Sender.Uses.seq_of_leaves ?_ hfirst hstage1 ?_
  · exact Sender.Uses.skipIf fun p h room hp => huses1 p h room ⟨hp.1, trivial⟩
  · exact Sender.Uses.skipIf fun p h room hp => huses2 p h room hp.1

theorem uses_sendAckmsg : Sender.Uses (Lesson order T O r noTable F) (Peer.sendAckmsg i) 1 := by
  intro p h room hp hle
  rw [Peer.sendAckmsg]
  split_ifs
  · exact ⟨room, rfl, by omega⟩
  · exact Sender.Uses.put (I := fun _ _ => True) p h room trivial hle

theorem uses_visit (hmax : ∀ n ∈ (T i).nodes, n.1 ≠ 4294967295) (hi : i ∈ order) :
    Sender.Uses (Lesson order T O r noTable F) (Peer.visit i)
      (1 + ((1 + (T i).nodes.length) + (1 + (T i).nodes.length))) :=
  Sender.Uses.seq keeps_sendAckmsg uses_sendAckmsg
    (Sender.Uses.skipIf fun p h room hp => uses_teachTable hmax hi p h room hp.1)

/-- **From wherever a lesson has come to, a call with room enough completes it.** -/
theorem Lesson.completes (hl : Lesson order T O r noTable F p h)
    (hmax : ∀ i ∈ order, ∀ n ∈ (T i).nodes, n.1 ≠ 4294967295) :
    ∃ enough, ∀ room, enough ≤ room →
      PeerMsg.resyncFinished ∈ h ++ (p.sendMsgs room).out := by
  have hmem : ∀ j, j ∈ p.visitOrder ↔ j ∈ order := fun j => by
    rw [mem_visitOrder fun k hk => hl.order_eq ▸ hl.last k hk, hl.order_eq]
  refine ⟨(p.visitOrder.map fun i =>
    1 + ((1 + (T i).nodes.length) + (1 + (T i).nodes.length))).sum + 1, fun room hle => ?_⟩
  have huses := Sender.Uses.each (I := Lesson order T O r noTable F) (f := Peer.visit)
    (fun j hj => (keeps_visit ((hmem j).mp hj)).1)
    fun j hj => uses_visit (hmax j ((hmem j).mp hj)) ((hmem j).mp hj)
  obtain ⟨room', hroom, hused⟩ := huses p h room hl (by omega)
  obtain ⟨hvisits, -⟩ := hl.visits room
  rw [Peer.sendMsgs, Sender.seq, Sender.andThen, hroom]
  dsimp only
  rw [Sender.skipIf, hvisits.flag]
  rcases hF : F with - | -
  · obtain ⟨room'', rfl⟩ : ∃ room'', room' = room'' + 1 := ⟨room' - 1, by omega⟩
    rw [if_neg Bool.false_ne_true]
    exact List.mem_append_right _ (List.mem_append_right _ List.mem_cons_self)
  · exact List.mem_append_left _ (hl.finished hF)

end Room

/-! ### The last number -/

/-- A table holds the last number and is in its first stage. -/
structure Endless (i : τ) (t : EbUniq UInt32 ι) (p : Peer τ ι) (h : List (PeerMsg τ ι)) : Prop where
  updates : (p.tables i).updates = t
  stage1 : (p.tables i).teachStage1 = false
  flag : p.teachFinished = false
  unfinished : PeerMsg.resyncFinished ∉ h

section Endless

variable {t : EbUniq UInt32 ι} {p : Peer τ ι} {h : List (PeerMsg τ ι)} {i j : τ}

omit [DecidableEq τ] in
theorem Endless.frame (hp : Endless i t p h) {q : Peer τ ι} {out : List (PeerMsg τ ι)}
    (htable : q.tables i = p.tables i) (hflag : q.teachFinished = p.teachFinished)
    (hout : PeerMsg.resyncFinished ∉ out) : Endless i t q (h ++ out) where
  updates := htable ▸ hp.updates
  stage1 := htable ▸ hp.stage1
  flag := hflag.trans hp.flag
  unfinished := by
    rw [List.mem_append]
    exact fun hor => hor.elim hp.unfinished hout

theorem teachLoop_frame (lookup : SharedTable ι → Option (UInt32 × ι) × SharedTable ι) (hij : i ≠ j)
    (room : ℕ) : ∀ (p : Peer τ ι) (newPushed : Bool),
      let s := p.teachLoop lookup j newPushed room
      s.state.tables i = p.tables i ∧ s.state.teachFinished = p.teachFinished ∧
        PeerMsg.resyncFinished ∉ s.out := by
  induction room with
  | zero =>
    intro p newPushed
    rcases hlook : lookup (p.tables j) with ⟨- | n, st⟩
    · rw [Peer.teachLoop_none hlook]
      exact ⟨Peer.tables_setTable_of_ne p hij st, rfl, List.not_mem_nil⟩
    · rw [Peer.teachLoop_full hlook]
      exact ⟨Peer.tables_setTable_of_ne p hij st, rfl, List.not_mem_nil⟩
  | succ room ih =>
    intro p newPushed
    rcases hlook : lookup (p.tables j) with ⟨- | n, st⟩
    · rw [Peer.teachLoop_none hlook]
      exact ⟨Peer.tables_setTable_of_ne p hij st, rfl, List.not_mem_nil⟩
    · rw [Peer.teachLoop_push hlook]
      obtain ⟨htable, hflag, hout⟩ := ih (p.setTable j { st with lastPushed := n.1 }) false
      refine ⟨htable.trans (Peer.tables_setTable_of_ne p hij _), hflag, ?_⟩
      rw [List.mem_cons]
      exact fun hor => hor.elim (fun heq => by cases heq) hout

theorem teachStage1Lookup_endless (hmax : ∃ n ∈ t.nodes, n.1 = 4294967295) {st : SharedTable ι}
    (hst : st.updates = t) : ∃ n, st.teachStage1Lookup = (some n, st) := by
  obtain ⟨m, hm, hmax⟩ := hmax
  rw [SharedTable.teachStage1Lookup]
  rcases hge : st.updates.lookupGe (st.lastPushed + 1) with - | n
  · have hlt := EbUniq.lookupGe_none hge m (hst ▸ hm)
    rw [hmax, UInt32.lt_iff_toNat_lt] at hlt
    have hbound := (st.lastPushed + 1).toNat_lt
    have hval : (4294967295 : UInt32).toNat = 4294967295 := rfl
    omega
  · exact ⟨n, rfl⟩

theorem teachLoop_endless (hmax : ∃ n ∈ t.nodes, n.1 = 4294967295) (room : ℕ) :
    ∀ (p : Peer τ ι) (h : List (PeerMsg τ ι)) (newPushed : Bool), Endless i t p h →
      let s := p.teachLoop SharedTable.teachStage1Lookup i newPushed room
      Endless i t s.state (h ++ s.out) ∧ s.room = none := by
  induction room with
  | zero =>
    intro p h newPushed hp
    obtain ⟨n, hn⟩ := teachStage1Lookup_endless hmax hp.updates
    rw [Peer.teachLoop_full hn]
    exact ⟨hp.frame (Peer.tables_setTable_self ..) rfl List.not_mem_nil, rfl⟩
  | succ room ih =>
    intro p h newPushed hp
    obtain ⟨n, hn⟩ := teachStage1Lookup_endless hmax hp.updates
    have hpush : Endless i t (p.setTable i { p.tables i with lastPushed := n.1 })
        (h ++ [.update n.1 ((p.tables i).useIdentifier n.1 newPushed) (!p.dwngrd) n.2]) := by
      refine ⟨?_, ?_, hp.flag, ?_⟩
      · rw [Peer.tables_setTable_self]
        exact hp.updates
      · rw [Peer.tables_setTable_self]
        exact hp.stage1
      · rw [List.mem_append, List.mem_singleton]
        exact fun hor => hor.elim hp.unfinished fun heq => by cases heq
    obtain ⟨hrec, hroom⟩ := ih _ _ false hpush
    rw [Peer.teachLoop_push hn]
    rw [List.append_assoc] at hrec
    exact ⟨hrec, hroom⟩

theorem endless_sendSwitchmsg : Sender.Keeps (Endless i t) (Peer.sendSwitchmsg (ι := ι) j) := by
  refine Sender.Keeps.skipIf ?_
  rintro p h (- | room) ⟨hp, -⟩
  · exact hp.frame rfl rfl List.not_mem_nil
  · exact hp.frame rfl rfl (show PeerMsg.resyncFinished ∉ [PeerMsg.switch j] by simp)

theorem endless_sendAckmsg : Sender.Keeps (Endless i t) (Peer.sendAckmsg (ι := ι) j) := by
  rintro p h room hp
  rw [Peer.sendAckmsg]
  split_ifs
  · exact hp.frame rfl rfl List.not_mem_nil
  · rcases room with - | room
    · exact hp.frame rfl rfl List.not_mem_nil
    · have hfin : PeerMsg.resyncFinished ∉ h ++ [PeerMsg.ack (p.tables j).lastGet] := by
        rw [List.mem_append, List.mem_singleton]
        exact fun hor => hor.elim hp.unfinished fun heq => by cases heq
      by_cases hij : i = j
      · subst hij
        refine ⟨?_, ?_, hp.flag, hfin⟩
        · show ((p.setTable i _).tables i).updates = t
          rw [Peer.tables_setTable_self]
          exact hp.updates
        · show ((p.setTable i _).tables i).teachStage1 = false
          rw [Peer.tables_setTable_self]
          exact hp.stage1
      · exact hp.frame (Peer.tables_setTable_of_ne p hij _) rfl
          (show PeerMsg.resyncFinished ∉ [PeerMsg.ack (p.tables j).lastGet] by simp)

theorem endless_other (hij : i ≠ j) : Sender.Keeps (Endless i t) (Peer.teachTable (ι := ι) j) := by
  have hstage : ∀ lookup : SharedTable ι → Option (UInt32 × ι) × SharedTable ι,
      Sender.Keeps (Endless i t) (Peer.sendTeachmsgs lookup j) := fun lookup =>
    endless_sendSwitchmsg.seq fun p h room hp => by
      obtain ⟨htable, hflag, hout⟩ := teachLoop_frame lookup hij room p true
      exact hp.frame htable hflag hout
  refine Sender.Keeps.seq ?_ ?_
  · exact Sender.Keeps.skipIf fun p h room hp => hstage _ p h room hp.1
  · exact Sender.Keeps.skipIf fun p h room hp => hstage _ p h room hp.1

theorem endless_self (hmax : ∃ n ∈ t.nodes, n.1 = 4294967295) :
    Sender.Keeps (Endless i t) (Peer.teachTable (ι := ι) i) ∧
      Sender.Leaves (Endless i t) (Peer.teachTable (ι := ι) i) fun _ => False := by
  have hkeeps : Sender.Keeps (Endless i t)
      (Peer.sendTeachmsgs (ι := ι) SharedTable.teachStage1Lookup i) :=
    endless_sendSwitchmsg.seq fun p h room hp => (teachLoop_endless hmax room p h true hp).1
  have hleaves : Sender.Leaves (Endless i t)
      (Peer.sendTeachmsgs (ι := ι) SharedTable.teachStage1Lookup i) fun _ => False :=
    Sender.Leaves.seq endless_sendSwitchmsg fun p h room hp hroom =>
      hroom (teachLoop_endless hmax room p h true hp).2
  have hskip : Sender.Leaves (Endless i t) (.skipIf (fun p => (p.tables i).teachStage1)
      (Peer.sendTeachmsgs (ι := ι) SharedTable.teachStage1Lookup i)) fun _ => False :=
    Sender.Leaves.skipIf (fun p h hp hs => by
      rw [hp.stage1] at hs
      cases hs) fun p h room hp => hleaves p h room hp.1
  have hfirst : Sender.Keeps (Endless i t) (.skipIf (fun p => (p.tables i).teachStage1)
      (Peer.sendTeachmsgs (ι := ι) SharedTable.teachStage1Lookup i)) :=
    Sender.Keeps.skipIf fun p h room hp => hkeeps p h room hp.1
  exact ⟨hfirst.seq_of_leaves hskip fun _ _ _ hp => hp.2.elim,
    Sender.Leaves.seq_of_leaves hfirst hskip fun _ _ _ hp => hp.2.elim⟩

/-- **No call completes the lesson of a tree that holds the last number.** -/
theorem Endless.sendMsgs (hp : Endless i t p h) (hmax : ∃ n ∈ t.nodes, n.1 = 4294967295)
    (hi : i ∈ p.visitOrder) (room : ℕ) :
    Endless i t (p.sendMsgs room).state (h ++ (p.sendMsgs room).out) := by
  have hvisit : ∀ j, Sender.Keeps (Endless i t) (Peer.visit (ι := ι) j) := by
    intro j
    refine endless_sendAckmsg.seq (Sender.Keeps.skipIf fun p h room hp => ?_)
    by_cases hij : i = j
    · subst hij
      exact (endless_self hmax).1 p h room hp.1
    · exact endless_other hij p h room hp.1
  have hstuck : Sender.Leaves (Endless i t) (Peer.visit (ι := ι) i) fun _ => False := by
    refine Sender.Leaves.seq endless_sendAckmsg (Sender.Leaves.skipIf (fun p h hp hf => ?_)
      fun p h room hp => (endless_self hmax).2 p h room hp.1)
    rw [hp.flag] at hf
    cases hf
  have hall : Sender.Leaves (Endless i t) (.each Peer.visit p.visitOrder) fun _ => False :=
    Sender.Leaves.each hi (fun j _ => hvisit j) (fun _ _ _ _ _ hp => hp.2.elim) hstuck
  have hend := Sender.Keeps.each (fun j (_ : j ∈ p.visitOrder) => hvisit j) p h room hp
  rw [Peer.sendMsgs, Sender.seq, Sender.andThen]
  rcases hroom : (Sender.each Peer.visit p.visitOrder p room).room with - | room'
  · exact hend
  · exact (hall p h room hp (by rw [hroom]; exact Option.some_ne_none _)).elim

end Endless

/-! ### Runs -/

/-- What happens during a lesson: `peer_send_msgs` is called, with room for so many
messages; or an update of the other peer has been received for a table. -/
inductive TeachOp (τ : Type)
  | sendMsgs (room : ℕ)
  | receive (st : τ) (update : UInt32)

/-- The peer, and the messages that it has been sent since the resync request. -/
structure Teaching (τ ι : Type) where
  peer : Peer τ ι
  out : List (PeerMsg τ ι)

namespace Teaching

def step (s : Teaching τ ι) : TeachOp τ → Teaching τ ι
  | .sendMsgs room => ⟨(s.peer.sendMsgs room).state, s.out ++ (s.peer.sendMsgs room).out⟩
  | .receive st update =>
    ⟨s.peer.setTable st { s.peer.tables st with lastGet := update }, s.out⟩

/-- A lesson, from the resync request on. -/
def run (p : Peer τ ι) (ops : List (TeachOp τ)) : Teaching τ ι :=
  ops.foldl step ⟨p.resyncRequest, []⟩

end Teaching

/-- What a lesson is for.  However the calls are interrupted, each number is known to the
receiver when its message has been treated, and all entries of all tables have been
received when the lesson is said to be finished; and this is said at last, when there
is room enough. -/
def LessonExact (p : Peer τ ι) : Prop :=
  ∀ (lastGet : τ → UInt32) (ops : List (TeachOp τ)),
    (∀ a m b, (Teaching.run p ops).out = a ++ m :: b →
      Answered p.order (fun i => (p.tables i).updates)
        ((⟨p.lastLocalTable, lastGet, fun _ => []⟩ : Learner τ ι).treatAll a) m) ∧
      ∃ enough, ∀ room, enough ≤ room →
        PeerMsg.resyncFinished ∈ ((Teaching.run p ops).step (.sendMsgs room)).out

section Runs

variable {p : Peer τ ι}

omit [DecidableEq τ] in
theorem Teaching.run_concat [DecidableEq τ] (p : Peer τ ι) (ops : List (TeachOp τ))
    (op : TeachOp τ) :
    Teaching.run p (ops ++ [op]) = (Teaching.run p ops).step op := by
  rw [Teaching.run, List.foldl_append]
  rfl

theorem lesson_run (hlast : ∀ i, p.lastLocalTable = some i → i ∈ p.order) (lastGet : τ → UInt32)
    (ops : List (TeachOp τ)) :
    ∃ F, Lesson p.order (fun i => (p.tables i).updates) (fun i => (p.tables i).update)
      ⟨p.lastLocalTable, lastGet, fun _ => []⟩ noTable F (Teaching.run p ops).peer
      (Teaching.run p ops).out := by
  induction ops using List.reverseRecOn with
  | nil =>
    refine ⟨false, rfl, hlast, fun i => ?_, rfl, fun _ hi => hi.elim, ?_, rfl,
      fun hf => absurd hf Bool.false_ne_true⟩
    · -- nothing is behind the place where the lesson starts
      refine ⟨rfl, rfl, ?_, fun hs => absurd hs Bool.false_ne_true,
        fun hs => absurd hs Bool.false_ne_true⟩
      rintro n - hO (hs | hlt)
      · cases hs
      · exact absurd hO (not_le.mpr hlt)
    · intro a m b heq
      cases a <;> cases heq
  | append_singleton ops op ih =>
    obtain ⟨F, hl⟩ := ih
    rw [Teaching.run_concat]
    rcases op with room | ⟨i, update⟩
    · exact hl.sendMsgs room
    · refine ⟨F, hl.setTable (i := i) _ ?_ id⟩
      obtain ⟨hupdates, horigin, hupper, hlower, hall⟩ := hl.taught i
      exact ⟨hupdates, horigin, hupper, hlower, hall⟩

theorem endless_run (hlast : ∀ i, p.lastLocalTable = some i → i ∈ p.order) {i : τ}
    (hi : i ∈ p.order) (hmax : ∃ n ∈ (p.tables i).updates.nodes, n.1 = 4294967295)
    (ops : List (TeachOp τ)) :
    Endless i (p.tables i).updates (Teaching.run p ops).peer (Teaching.run p ops).out := by
  induction ops using List.reverseRecOn with
  | nil => exact ⟨rfl, rfl, rfl, List.not_mem_nil⟩
  | append_singleton ops op ih =>
    rw [Teaching.run_concat]
    rcases op with room | ⟨j, update⟩
    · obtain ⟨F, hl⟩ := lesson_run hlast (fun _ => 0) ops
      refine ih.sendMsgs hmax ?_ room
      rw [mem_visitOrder fun k hk => hl.order_eq ▸ hl.last k hk, hl.order_eq]
      exact hi
    · show Endless i (p.tables i).updates ((Teaching.run p ops).peer.setTable j _)
        (Teaching.run p ops).out
      by_cases hij : i = j
      · subst hij
        refine ⟨?_, ?_, ih.flag, ih.unfinished⟩
        · rw [Peer.tables_setTable_self]
          exact ih.updates
        · rw [Peer.tables_setTable_self]
          exact ih.stage1
      · have hframe := ih.frame
          (Peer.tables_setTable_of_ne (Teaching.run p ops).peer hij
            { (Teaching.run p ops).peer.tables j with lastGet := update }) rfl List.not_mem_nil
        rwa [List.append_nil] at hframe

end Runs

/-- **When lessons are complete**: when no tree of updates holds the last number. -/
theorem lessonExact_iff (p : Peer τ ι) (hlast : ∀ i, p.lastLocalTable = some i → i ∈ p.order) :
    LessonExact p ↔ ∀ i ∈ p.order, ∀ n ∈ (p.tables i).updates.nodes, n.1 ≠ 4294967295 := by
  constructor
  · intro h i hi n hn hmax
    obtain ⟨enough, hfin⟩ := (h (fun _ => 0) []).2
    have hend := endless_run hlast hi ⟨n, hn, hmax⟩ [.sendMsgs enough]
    exact hend.unfinished (hfin enough le_rfl)
  · intro hmax lastGet ops
    obtain ⟨F, hl⟩ := lesson_run hlast lastGet ops
    refine ⟨hl.answered, ?_⟩
    obtain ⟨enough, hfin⟩ := hl.completes hmax
    exact ⟨enough, hfin⟩

/-! ### A table near the wrap of its numbers -/

/-- A peer with one table, of which entry 7 has the last number and entry 8 the first. -/
def sampleTeach (updates : EbUniq UInt32 ℕ) : Peer Unit ℕ where
  order := [()]
  tables := fun _ => ⟨updates, 4294967290, 0, 0, 0, 0, false, false⟩
  lastLocalTable := none
  dwngrd := false
  teachFinished := false

/-- A lesson may be endless. -/
theorem not_lessonExact : ¬ ∀ p : Peer Unit ℕ, (∀ i, p.lastLocalTable = some i → i ∈ p.order) →
    LessonExact p := by
  intro hall
  have hlast : ∀ i, (sampleTeach ((EbUniq.empty.insert 4294967295 7).insert 0 8)).lastLocalTable
      = some i → i ∈ (sampleTeach ((EbUniq.empty.insert 4294967295 7).insert 0 8)).order := by
    intro i hi
    cases hi
  obtain ⟨enough, hfin⟩ := (hall _ hlast (fun _ => 0) []).2
  have hend := endless_run hlast (i := ()) List.mem_cons_self ⟨(4294967295, 7), by decide, rfl⟩
    [.sendMsgs enough]
  exact hend.unfinished (hfin enough le_rfl)

/-- The numbers around the wrap, without the last one. -/
theorem lessonExact_iff_wrap :
    LessonExact (sampleTeach ((EbUniq.empty.insert 4294967294 7).insert 0 8)) := by
  refine (lessonExact_iff _ ?_).mpr ?_
  · intro i hi
    cases hi
  · intro i _
    show ∀ n ∈ ((EbUniq.empty.insert 4294967294 7).insert 0 8).nodes, n.1 ≠ (4294967295 : UInt32)
    decide

end SmartHAProxy
