/-
What a lesson is worth.

Both passes over a tree go on from the last number that has been pushed, plus one.  An
invariant of each table (`Taught`) says which numbers are behind that place, and so have
been sent, whatever calls were interrupted.  With the invariant, the end of both stages
means that the other peer has got all entries, and each number left out of a message is
the one the receiver counts up to (`Lesson`).

The last number a tree can hold has no successor: a search from the number behind it
starts again at the first one.  `lessonExact_iff` says that this is the only obstacle.

Main result: `Lesson.sendMsgs`.
-/
import SmartHAProxy.Peers.Teach

namespace SmartHAProxy

/-! ### Looking up numbers -/

namespace EbUniq

variable {ι : Type} {t : EbUniq UInt32 ι} {k : UInt32} {n : UInt32 × ι}

theorem lookupGe_some (h : t.lookupGe k = some n) :
    n ∈ t.nodes ∧ k ≤ n.1 ∧ ∀ m ∈ t.nodes, k ≤ m.1 → n.1 ≤ m.1 ∧ (m.1 ≤ n.1 → m = n) := by
  obtain ⟨hk, pre, post, hnodes, hpre⟩ := List.find?_eq_some_iff_append.mp h
  have hk : k ≤ n.1 := by simpa using hk
  have hsorted := t.sorted
  rw [hnodes, List.pairwise_append, List.pairwise_cons] at hsorted
  obtain ⟨-, ⟨hpost, -⟩, -⟩ := hsorted
  refine ⟨hnodes ▸ List.mem_append_right _ List.mem_cons_self, hk, fun m hm hle => ?_⟩
  rw [hnodes, List.mem_append, List.mem_cons] at hm
  rcases hm with hm | rfl | hm
  · exact absurd hle (by simpa using hpre m hm)
  · exact ⟨le_rfl, fun _ => rfl⟩
  · exact ⟨(hpost m hm).le, fun hmn => absurd (hpost m hm) (not_lt.mpr hmn)⟩

theorem lookupGe_none (h : t.lookupGe k = none) : ∀ m ∈ t.nodes, m.1 < k := by
  intro m hm
  simpa using List.find?_eq_none.mp h m hm

theorem first_le {n : UInt32 × ι} (h : t.first = some n) : ∀ m ∈ t.nodes, n.1 ≤ m.1 := by
  obtain ⟨l, hnodes⟩ := List.head?_eq_some_iff.mp h
  have hsorted := t.sorted
  rw [hnodes, List.pairwise_cons] at hsorted
  intro m hm
  rw [hnodes] at hm
  rcases List.mem_cons.mp hm with rfl | hm
  · exact le_rfl
  · exact (hsorted.1 m hm).le

end EbUniq

theorem le_of_lt_succ {k u : UInt32} (h : k < u + 1) : k ≤ u := by
  rw [UInt32.lt_iff_toNat_lt, UInt32.toNat_add] at h
  rw [UInt32.le_iff_toNat_le]
  have hk := k.toNat_lt
  have hu := u.toNat_lt
  have h1 : (1 : UInt32).toNat = 1 := rfl
  omega

theorem succ_le_of_lt {u k : UInt32} (h : u < k) : u + 1 ≤ k := by
  rw [UInt32.lt_iff_toNat_lt] at h
  rw [UInt32.le_iff_toNat_le, UInt32.toNat_add]
  have hk := k.toNat_lt
  have h1 : (1 : UInt32).toNat = 1 := rfl
  omega

theorem pred_succ (u : UInt32) : u - 1 + 1 = u := by
  exact UInt32.sub_add_cancel u 1

/-! ### One table -/

section Table

variable {ι : Type}

/-- What the other peer has got of a tree, when a lesson that started at the update `O`
has come to a point. -/
structure Taught (T : EbUniq UInt32 ι) (O : UInt32) (st : SharedTable ι) (got : List ι) : Prop where
  updates : st.updates = T
  origin : st.teachingOrigin = O
  upper : ∀ n ∈ T.nodes, O + 1 ≤ n.1 → st.teachStage1 = true ∨ n.1 < st.lastPushed + 1 → n.2 ∈ got
  lower : st.teachStage1 = true → ∀ n ∈ T.nodes, n.1 < st.lastPushed + 1 → n.2 ∈ got
  all : st.teachStage2 = true → ∀ n ∈ T.nodes, n.2 ∈ got

variable {T : EbUniq UInt32 ι} {O : UInt32} {st : SharedTable ι} {got : List ι}

theorem Taught.push (h : Taught T O st got) {n : UInt32 × ι}
    (hn : st.updates.lookupGe (st.lastPushed + 1) = some n) :
    Taught T O { st with lastPushed := n.1 } (n.2 :: got) := by
  rw [h.updates] at hn
  obtain ⟨-, -, hleast⟩ := EbUniq.lookupGe_some hn
  have hgot : ∀ m ∈ T.nodes, m.1 < n.1 + 1 → (m.1 < st.lastPushed + 1 → m.2 ∈ got) →
      m.2 ∈ n.2 :: got := by
    intro m hm hlt hold
    by_cases hback : m.1 < st.lastPushed + 1
    · exact List.mem_cons_of_mem _ (hold hback)
    · -- nothing is between the last number and this one
      rw [(hleast m hm (not_lt.mp hback)).2 (le_of_lt_succ hlt)]
      exact List.mem_cons_self
  refine ⟨h.updates, h.origin, ?_, ?_, ?_⟩
  · rintro m hm hO (hs | hlt)
    · exact List.mem_cons_of_mem _ (h.upper m hm hO (Or.inl hs))
    · exact hgot m hm hlt fun hback => h.upper m hm hO (Or.inr hback)
  · intro hs m hm hlt
    exact hgot m hm hlt (h.lower hs m hm)
  · intro hs m hm
    exact List.mem_cons_of_mem _ (h.all hs m hm)

/-- What a lookup is for, in a stage: it gives the next update, or it ends the stage. -/
def Looks (lookup : SharedTable ι → Option (UInt32 × ι) × SharedTable ι)
    (C done : SharedTable ι → Prop) : Prop :=
  ∀ st : SharedTable ι, C st →
    (∃ n, lookup st = (some n, st) ∧ st.updates.lookupGe (st.lastPushed + 1) = some n) ∨
      ∃ st', lookup st = (none, st') ∧ done st' ∧ C st' ∧
        (st.teachStage2 = true → st'.teachStage2 = true) ∧
        ∀ T O got, Taught T O st got → Taught T O st' got

theorem looks_stage1 : Looks (ι := ι) SharedTable.teachStage1Lookup (fun _ => True)
    fun st => st.teachStage1 = true := by
  intro st _
  rw [SharedTable.teachStage1Lookup]
  rcases hge : st.updates.lookupGe (st.lastPushed + 1) with - | n
  · refine Or.inr ⟨_, rfl, rfl, trivial, id, fun T O got h => ?_⟩
    have hall := EbUniq.lookupGe_none hge
    rw [h.updates] at hall
    refine ⟨h.updates, h.origin, fun m hm hO _ => h.upper m hm hO (Or.inr (hall m hm)), ?_, h.all⟩
    intro _ m hm hlt
    exfalso
    rcases hfirst : st.updates.first with - | n
    · rw [h.updates, EbUniq.first, List.head?_eq_none_iff] at hfirst
      rw [hfirst] at hm
      cases hm
    · simp only [hfirst, Option.map_some, Option.getD_some, pred_succ] at hlt
      rw [h.updates] at hfirst
      exact absurd (EbUniq.first_le hfirst m hm) (not_le.mpr hlt)
  · exact Or.inl ⟨n, rfl, rfl⟩

theorem looks_stage2 : Looks (ι := ι) SharedTable.teachStage2Lookup
    (fun st => st.teachStage1 = true) fun st => st.teachStage2 = true := by
  intro st hs
  rw [SharedTable.teachStage2Lookup]
  rcases hge : st.updates.lookupGe (st.lastPushed + 1) with - | n
  · refine Or.inr ⟨_, rfl, rfl, hs, fun _ => rfl, fun T O got h => ?_⟩
    have hall := EbUniq.lookupGe_none hge
    rw [h.updates] at hall
    exact ⟨h.updates, h.origin, h.upper, h.lower, fun _ m hm => h.lower hs m hm (hall m hm)⟩
  · by_cases hO : n.1 > st.teachingOrigin
    · refine Or.inr ⟨{ st with teachStage2 := true }, if_pos hO, rfl, hs, fun _ => rfl,
        fun T O got h => ?_⟩
      rw [h.updates] at hge
      rw [h.origin] at hO
      refine ⟨h.updates, h.origin, h.upper, h.lower, fun _ m hm => ?_⟩
      by_cases hback : m.1 < st.lastPushed + 1
      · exact h.lower hs m hm hback
      · have hle := ((EbUniq.lookupGe_some hge).2.2 m hm (not_lt.mp hback)).1
        exact h.upper m hm (succ_le_of_lt (lt_of_lt_of_le hO hle)) (Or.inl hs)
    · exact Or.inl ⟨n, if_neg hO, rfl⟩

end Table

/-! ### All tables, and the other peer -/

variable {τ ι : Type} [DecidableEq τ]

/-- What is expected when a message is treated: the receiver knows the number of an update,
and has got all entries of all tables when it is told that the lesson is finished. -/
def Answered (order : List τ) (T : τ → EbUniq UInt32 ι) (r : Learner τ ι)
    (m : PeerMsg τ ι) : Prop :=
  match m with
  | .update updateid _ _ _ => ∃ i, r.remoteTable = some i ∧ (r.treat m).lastGet i = updateid
  | .resyncFinished => ∀ i ∈ order, ∀ n ∈ (T i).nodes, n.2 ∈ r.entries i
  | _ => True

/-- Where a lesson has come to, when the messages `h` have been sent: each table is taught
as far as its place says, the receiver knows which table it is told about, and all
messages have been answered.  The tables of `D` are complete, and `F` tells whether the
other peer has been told that all are. -/
structure Lesson (order : List τ) (T : τ → EbUniq UInt32 ι) (O : τ → UInt32) (r : Learner τ ι)
    (D : τ → Prop) (F : Bool) (p : Peer τ ι) (h : List (PeerMsg τ ι)) : Prop where
  order_eq : p.order = order
  last : ∀ i, p.lastLocalTable = some i → i ∈ order
  taught : ∀ i, Taught (T i) (O i) (p.tables i) ((r.treatAll h).entries i)
  remote : (r.treatAll h).remoteTable = p.lastLocalTable
  done : ∀ i, D i → (p.tables i).teachStage2 = true
  answered : ∀ a m b, h = a ++ m :: b → Answered order T (r.treatAll a) m
  flag : p.teachFinished = F
  finished : F = true → PeerMsg.resyncFinished ∈ h

theorem Learner.treatAll_concat (r : Learner τ ι) (h : List (PeerMsg τ ι)) (m : PeerMsg τ ι) :
    r.treatAll (h ++ [m]) = (r.treatAll h).treat m := by
  rw [treatAll, List.foldl_append]
  rfl

omit [DecidableEq τ] in
theorem answered_concat {P : List (PeerMsg τ ι) → PeerMsg τ ι → Prop} {h : List (PeerMsg τ ι)}
    {x : PeerMsg τ ι} (hold : ∀ a m b, h = a ++ m :: b → P a m) (hnew : P h x) :
    ∀ a m b, h ++ [x] = a ++ m :: b → P a m := by
  intro a m b heq
  rcases List.eq_nil_or_concat b with rfl | ⟨b, y, rfl⟩
  · obtain ⟨rfl, hx⟩ := List.append_inj' heq rfl
    obtain rfl : x = m := by simpa using hx
    exact hnew
  · rw [List.concat_eq_append, ← List.cons_append, ← List.append_assoc] at heq
    obtain ⟨rfl, -⟩ := List.append_inj' heq rfl
    exact hold a m b rfl

section Steps

variable {order : List τ} {T : τ → EbUniq UInt32 ι} {O : τ → UInt32} {r : Learner τ ι}
  {D : τ → Prop} {F : Bool} {p : Peer τ ι} {h : List (PeerMsg τ ι)} {i : τ}

theorem Lesson.setTable (hl : Lesson order T O r D F p h) (st : SharedTable ι)
    (hst : Taught (T i) (O i) st ((r.treatAll h).entries i))
    (hdone : (p.tables i).teachStage2 = true → st.teachStage2 = true) :
    Lesson order T O r D F (p.setTable i st) h where
  order_eq := hl.order_eq
  last := hl.last
  taught := by
    intro j
    by_cases hj : j = i
    · subst hj
      rw [Peer.tables_setTable_self]
      exact hst
    · rw [Peer.tables_setTable_of_ne p hj]
      exact hl.taught j
  remote := hl.remote
  done := by
    intro j hD
    by_cases hj : j = i
    · subst hj
      rw [Peer.tables_setTable_self]
      exact hdone (hl.done j hD)
    · rw [Peer.tables_setTable_of_ne p hj]
      exact hl.done j hD
  answered := hl.answered
  flag := hl.flag
  finished := hl.finished

theorem useIdentifier_exact {st : SharedTable ι} {updateid lastGet : UInt32} {newPushed : Bool}
    (hget : newPushed = false → lastGet = st.lastPushed) :
    (if st.useIdentifier updateid newPushed then updateid else lastGet + 1) = updateid := by
  split_ifs with huse
  · rfl
  · rw [SharedTable.useIdentifier, Bool.or_eq_true, Bool.or_eq_true, Bool.or_eq_true, not_or, not_or,
      not_or] at huse
    obtain ⟨⟨⟨hnew, -⟩, -⟩, hdiff⟩ := huse
    have hsub : updateid - st.lastPushed = 1 := by simpa using hdiff
    rw [hget (by simpa using hnew), ← hsub, UInt32.add_comm]
    exact UInt32.sub_add_cancel updateid st.lastPushed

/-- An update is pushed. -/
theorem Lesson.push (hl : Lesson order T O r D F p h) (hi : p.lastLocalTable = some i)
    {newPushed : Bool} (hget : newPushed = false →
      (r.treatAll h).lastGet i = (p.tables i).lastPushed) {n : UInt32 × ι}
    (hn : (p.tables i).updates.lookupGe ((p.tables i).lastPushed + 1) = some n) (useTimed : Bool) :
    let m : PeerMsg τ ι := .update n.1 ((p.tables i).useIdentifier n.1 newPushed) useTimed n.2
    Lesson order T O r D F (p.setTable i { p.tables i with lastPushed := n.1 }) (h ++ [m]) ∧
      (r.treatAll (h ++ [m])).lastGet i = n.1 := by
  intro m
  have hremote := hl.remote.trans hi
  have htreat : (r.treatAll (h ++ [m])) = { r.treatAll h with
      lastGet := Function.update (r.treatAll h).lastGet i n.1
      entries := Function.update (r.treatAll h).entries i (n.2 :: (r.treatAll h).entries i) } := by
    rw [Learner.treatAll_concat, Learner.treat, hremote]
    simp only [useIdentifier_exact hget]
    rw [← hremote]
  have hentries : (r.treatAll (h ++ [m])).entries
      = Function.update (r.treatAll h).entries i (n.2 :: (r.treatAll h).entries i) := by rw [htreat]
  have hlastGet : (r.treatAll (h ++ [m])).lastGet i = n.1 := by
    rw [htreat]
    exact Function.update_self ..
  refine ⟨⟨hl.order_eq, hl.last, ?_, ?_, ?_, ?_, hl.flag, ?_⟩, hlastGet⟩
  · intro j
    rw [hentries]
    by_cases hj : j = i
    · subst hj
      rw [Peer.tables_setTable_self, Function.update_self]
      exact (hl.taught j).push hn
    · rw [Peer.tables_setTable_of_ne p hj, Function.update_of_ne hj]
      exact hl.taught j
  · rw [htreat]
    exact hl.remote
  · intro j hD
    by_cases hj : j = i
    · subst hj
      rw [Peer.tables_setTable_self]
      exact hl.done j hD
    · rw [Peer.tables_setTable_of_ne p hj]
      exact hl.done j hD
  · refine answered_concat hl.answered ⟨i, hremote, ?_⟩
    rw [← Learner.treatAll_concat]
    exact hlastGet
  · exact fun hf => List.mem_append_left _ (hl.finished hf)

/-- The loop of a stage: it keeps the lesson, and has come to the end of the stage when it
has not failed. -/
theorem Lesson.teachLoop {lookup : SharedTable ι → Option (UInt32 × ι) × SharedTable ι}
    {C done : SharedTable ι → Prop} (hlook : Looks lookup C done)
    (hC : ∀ st u, C st → C { st with lastPushed := u }) (room : ℕ) :
    ∀ (p : Peer τ ι) (h : List (PeerMsg τ ι)) (newPushed : Bool), Lesson order T O r D F p h →
      p.lastLocalTable = some i → C (p.tables i) →
      (newPushed = false → (r.treatAll h).lastGet i = (p.tables i).lastPushed) →
      let s := p.teachLoop lookup i newPushed room
      Lesson order T O r D F s.state (h ++ s.out) ∧ C (s.state.tables i) ∧
        (s.room ≠ none → done (s.state.tables i)) := by
  induction room with
  | zero =>
    intro p h newPushed hl _ hCp _
    rcases hlook (p.tables i) hCp with ⟨n, hn, -⟩ | ⟨st, hst, hdone, hCst, hmono, htaught⟩
    · rw [Peer.teachLoop_full hn]
      dsimp only
      rw [List.append_nil]
      refine ⟨hl.setTable _ (hl.taught i) id, ?_, fun hroom => absurd rfl hroom⟩
      rwa [Peer.tables_setTable_self]
    · rw [Peer.teachLoop_none hst]
      dsimp only
      rw [List.append_nil]
      refine ⟨hl.setTable _ (htaught _ _ _ (hl.taught i)) hmono, ?_, fun _ => ?_⟩
      · rwa [Peer.tables_setTable_self]
      · rwa [Peer.tables_setTable_self]
  | succ room ih =>
    intro p h newPushed hl hi hCp hget
    rcases hlook (p.tables i) hCp with ⟨n, hn, hge⟩ | ⟨st, hst, hdone, hCst, hmono, htaught⟩
    · obtain ⟨hpush, hlastGet⟩ := hl.push hi hget hge (!p.dwngrd)
      have hrec := ih _ _ false hpush hi (by
        rw [Peer.tables_setTable_self]
        exact hC _ _ hCp) (fun _ => by
        rw [hlastGet, Peer.tables_setTable_self])
      rw [Peer.teachLoop_push hn]
      dsimp only at hrec ⊢
      rw [List.append_assoc] at hrec
      exact hrec
    · rw [Peer.teachLoop_none hst]
      dsimp only
      rw [List.append_nil]
      refine ⟨hl.setTable _ (htaught _ _ _ (hl.taught i)) hmono, ?_, fun _ => ?_⟩
      · rwa [Peer.tables_setTable_self]
      · rwa [Peer.tables_setTable_self]

/-! ### The calls -/

theorem keeps_sendSwitchmsg (hi : i ∈ order) (C : SharedTable ι → Prop) :
    Sender.Keeps (fun p h => Lesson order T O r D F p h ∧ C (p.tables i))
      (Peer.sendSwitchmsg i) := by
  refine Sender.Keeps.skipIf ?_
  rintro p h (- | room) ⟨⟨hl, hC⟩, -⟩
  · show Lesson order T O r D F p (h ++ []) ∧ C (p.tables i)
    rw [List.append_nil]
    exact ⟨hl, hC⟩
  · refine ⟨⟨hl.order_eq, ?_, fun j => ?_, ?_, hl.done, ?_, hl.flag, ?_⟩, hC⟩
    · rintro j hj
      obtain rfl : i = j := Option.some.inj hj
      exact hi
    · show Taught (T j) (O j) (p.tables j) ((r.treatAll (h ++ [.switch i])).entries j)
      rw [Learner.treatAll_concat]
      exact hl.taught j
    · show (r.treatAll (h ++ [.switch i])).remoteTable = some i
      rw [Learner.treatAll_concat]
      rfl
    · exact answered_concat hl.answered trivial
    · exact fun hf => List.mem_append_left _ (hl.finished hf)

theorem leaves_sendSwitchmsg (I : Peer τ ι → List (PeerMsg τ ι) → Prop) :
    Sender.Leaves I (Peer.sendSwitchmsg i) fun p => p.lastLocalTable = some i := by
  refine Sender.Leaves.skipIf (fun p _ _ hc => by simpa using hc) ?_
  rintro p h (- | room) - hroom
  · exact absurd rfl hroom
  · rfl

theorem keeps_sendTeachmsgs {lookup : SharedTable ι → Option (UInt32 × ι) × SharedTable ι}
    {C done : SharedTable ι → Prop} (hlook : Looks lookup C done)
    (hC : ∀ st u, C st → C { st with lastPushed := u }) (hi : i ∈ order) :
    Sender.Keeps (fun p h => Lesson order T O r D F p h ∧ C (p.tables i))
        (Peer.sendTeachmsgs lookup i) ∧
      Sender.Leaves (fun p h => Lesson order T O r D F p h ∧ C (p.tables i))
        (Peer.sendTeachmsgs lookup i) fun p => done (p.tables i) := by
  have hloop : ∀ p h room,
      (Lesson order T O r D F p h ∧ C (p.tables i)) ∧ p.lastLocalTable = some i →
      let s := p.teachLoop lookup i true room
      Lesson order T O r D F s.state (h ++ s.out) ∧ C (s.state.tables i) ∧
        (s.room ≠ none → done (s.state.tables i)) :=
    fun p h room hp => Lesson.teachLoop hlook hC room p h true hp.1.1 hp.2 hp.1.2 (by simp)
  have hswitch := keeps_sendSwitchmsg (T := T) (O := O) (r := r) (D := D) (F := F) hi C
  constructor
  · refine hswitch.seq_of_leaves (leaves_sendSwitchmsg _) fun p h room hp => ?_
    exact ⟨(hloop p h room hp).1, (hloop p h room hp).2.1⟩
  · refine Sender.Leaves.seq_of_leaves hswitch (leaves_sendSwitchmsg _) fun p h room hp => ?_
    exact (hloop p h room hp).2.2

theorem keeps_stage1 (hi : i ∈ order) :
    Sender.Keeps (Lesson order T O r D F) (.skipIf (fun p => (p.tables i).teachStage1)
        (Peer.sendTeachmsgs SharedTable.teachStage1Lookup i)) ∧
      Sender.Leaves (Lesson order T O r D F) (.skipIf (fun p => (p.tables i).teachStage1)
        (Peer.sendTeachmsgs SharedTable.teachStage1Lookup i))
        fun p => (p.tables i).teachStage1 = true := by
  obtain ⟨hkeeps, hleaves⟩ := keeps_sendTeachmsgs (T := T) (O := O) (r := r) (D := D) (F := F)
    looks_stage1 (fun _ _ _ => trivial) hi
  constructor
  · exact Sender.Keeps.skipIf fun p h room hp => (hkeeps p h room ⟨hp.1, trivial⟩).1
  · exact Sender.Leaves.skipIf (fun _ _ _ hc => hc) fun p h room hp =>
      hleaves p h room ⟨hp.1, trivial⟩

theorem keeps_teachTable (hi : i ∈ order) :
    Sender.Keeps (Lesson order T O r D F) (Peer.teachTable i) ∧
      Sender.Leaves (Lesson order T O r D F) (Peer.teachTable i)
        fun p => (p.tables i).teachStage2 = true := by
  obtain ⟨hfirst, hstage1⟩ := keeps_stage1 (T := T) (O := O) (r := r) (D := D) (F := F) hi
  obtain ⟨hkeeps, hleaves⟩ := keeps_sendTeachmsgs (T := T) (O := O) (r := r) (D := D) (F := F)
    looks_stage2 (fun _ _ hs => hs) hi
  constructor
  · refine hfirst.seq_of_leaves hstage1 fun p h room hp => ?_
    exact (Sender.Keeps.skipIf (fun p h room hp => hkeeps p h room hp.1) p h room hp).1
  · refine Sender.Leaves.seq_of_leaves hfirst hstage1 ?_
    exact Sender.Leaves.skipIf (fun _ _ _ hc => hc) fun p h room hp => hleaves p h room hp.1

theorem keeps_sendAckmsg : Sender.Keeps (Lesson order T O r D F) (Peer.sendAckmsg i) := by
  rintro p h room hl
  have htable : ∀ u, Lesson order T O r D F (p.setTable i { p.tables i with lastAcked := u }) h :=
    fun u => hl.setTable { p.tables i with lastAcked := u } ⟨(hl.taught i).updates,
      (hl.taught i).origin, (hl.taught i).upper, (hl.taught i).lower, (hl.taught i).all⟩ id
  rw [Peer.sendAckmsg]
  split_ifs
  · rwa [List.append_nil]
  · rcases room with - | room
    · show Lesson order T O r D F p (h ++ [])
      rwa [List.append_nil]
    · obtain ⟨horder, hlast, htaught, hremote, hdone, hanswered, hflag, hfinished⟩ :=
        htable (p.tables i).lastGet
      refine ⟨horder, hlast, fun j => ?_, ?_, hdone, answered_concat hanswered trivial, hflag, ?_⟩
      · show Taught _ _ _ ((r.treatAll (h ++ [.ack (p.tables i).lastGet])).entries j)
        rw [Learner.treatAll_concat]
        exact htaught j
      · show (r.treatAll (h ++ [.ack (p.tables i).lastGet])).remoteTable = _
        rw [Learner.treatAll_concat]
        exact hremote
      · exact fun hf => List.mem_append_left _ (hfinished hf)

theorem keeps_visit (hi : i ∈ order) :
    Sender.Keeps (Lesson order T O r D F) (Peer.visit i) ∧
      Sender.Leaves (Lesson order T O r D F) (Peer.visit i)
        fun p => F = false → (p.tables i).teachStage2 = true := by
  obtain ⟨hkeeps, hleaves⟩ := keeps_teachTable (T := T) (O := O) (r := r) (D := D) (F := F) hi
  have hskip : Sender.Keeps (Lesson order T O r D F)
      (.skipIf Peer.teachFinished (Peer.teachTable i)) :=
    Sender.Keeps.skipIf fun p h room hp => hkeeps p h room hp.1
  refine ⟨keeps_sendAckmsg.seq hskip, Sender.Leaves.seq keeps_sendAckmsg ?_⟩
  refine Sender.Leaves.skipIf (fun p h hp hc hF => ?_) fun p h room hp hroom _ =>
    hleaves p h room hp.1 hroom
  rw [hp.flag, hF] at hc
  cases hc

end Steps

/-! ### The order of the tables -/

theorem ne_split {l : List τ} {i : τ} (hi : i ∈ l) :
    l = l.takeWhile (fun j => j ≠ i) ++ i :: (l.dropWhile fun j => j ≠ i).tail := by
  induction l with
  | nil => cases hi
  | cons j l ih =>
    by_cases hj : j = i
    · subst hj
      rw [List.takeWhile_cons_of_neg (by simp), List.dropWhile_cons_of_neg (by simp)]
      rfl
    · rw [List.takeWhile_cons_of_pos (by simpa using hj),
        List.dropWhile_cons_of_pos (by simpa using hj), List.cons_append]
      exact congrArg _ (ih ((List.mem_cons.mp hi).resolve_left fun h => hj h.symm))

/-- A call goes through all tables. -/
theorem mem_visitOrder {p : Peer τ ι} (hlast : ∀ i, p.lastLocalTable = some i → i ∈ p.order)
    {j : τ} :
    j ∈ p.visitOrder ↔ j ∈ p.order := by
  rw [Peer.visitOrder]
  rcases hfirst : (p.lastLocalTable <|> p.order.head?) with - | i
  · have horder : p.order = [] := by
      rcases hl : p.lastLocalTable with - | k
      · rw [hl] at hfirst
        exact List.head?_eq_none_iff.mp hfirst
      · rw [hl] at hfirst
        cases hfirst
    rw [horder]
  · have hi : i ∈ p.order := by
      rcases hl : p.lastLocalTable with - | k
      · rw [hl] at hfirst
        exact List.mem_of_mem_head? hfirst
      · rw [hl] at hfirst
        obtain rfl : k = i := Option.some.inj hfirst
        exact hlast k hl
    have hsplit := ne_split hi
    constructor
    · intro hj
      rw [hsplit, List.mem_append, List.mem_cons]
      rcases List.mem_append.mp hj with hj | hj
      · rcases List.mem_append.mp hj with hj | hj
        · exact Or.inr (Or.inr hj)
        · exact Or.inl hj
      · exact Or.inr (Or.inl (List.mem_singleton.mp hj))
    · intro hj
      rw [hsplit, List.mem_append, List.mem_cons] at hj
      rcases hj with hj | rfl | hj
      · exact List.mem_append_left _ (List.mem_append_right _ hj)
      · exact List.mem_append_right _ List.mem_cons_self
      · exact List.mem_append_left _ (List.mem_append_left _ hj)

section Calls

variable {order : List τ} {T : τ → EbUniq UInt32 ι} {O : τ → UInt32} {r : Learner τ ι} {F : Bool}
  {p : Peer τ ι} {h : List (PeerMsg τ ι)} {i : τ}

def noTable {τ : Type} (_ : τ) : Prop := False

theorem Lesson.add_done (hl : Lesson order T O r noTable F p h)
    (hi : (p.tables i).teachStage2 = true) : Lesson order T O r (· = i) F p h :=
  ⟨hl.order_eq, hl.last, hl.taught, hl.remote, fun _ hj => hj ▸ hi, hl.answered, hl.flag, hl.finished⟩

theorem Lesson.finish (hl : Lesson order T O r noTable false p h)
    (hall : ∀ j ∈ order, (p.tables j).teachStage2 = true) :
    Lesson order T O r noTable true { p with teachFinished := true } (h ++ [.resyncFinished]) where
  order_eq := hl.order_eq
  last := hl.last
  taught := by
    intro j
    rw [Learner.treatAll_concat]
    exact hl.taught j
  remote := by
    rw [Learner.treatAll_concat]
    exact hl.remote
  done := fun _ hj => hj.elim
  answered := answered_concat hl.answered fun j hj => (hl.taught j).all (hall j hj)
  flag := rfl
  finished := fun _ => List.mem_append_right _ List.mem_cons_self

theorem Lesson.visits (hl : Lesson order T O r noTable F p h) (room : ℕ) :
    let s := Sender.each Peer.visit p.visitOrder p room
    Lesson order T O r noTable F s.state (h ++ s.out) ∧
      (s.room ≠ none → F = false → ∀ j ∈ order, (s.state.tables j).teachStage2 = true) := by
  have hmem : ∀ j, j ∈ p.visitOrder ↔ j ∈ order := fun j => by
    rw [mem_visitOrder fun k hk => hl.order_eq ▸ hl.last k hk, hl.order_eq]
  have hkeeps : ∀ j ∈ p.visitOrder, Sender.Keeps (Lesson order T O r noTable F) (Peer.visit j) :=
    fun j hj => (keeps_visit ((hmem j).mp hj)).1
  refine ⟨Sender.Keeps.each hkeeps p h room hl, fun hroom hF j hj => ?_⟩
  have hleaves : Sender.Leaves (Lesson order T O r noTable F) (.each Peer.visit p.visitOrder)
      fun p => F = false → (p.tables j).teachStage2 = true := by
    refine Sender.Leaves.each ((hmem j).mpr hj) hkeeps (fun k hk p h room hp => ?_)
      (keeps_visit hj).2
    refine ⟨hkeeps k hk p h room hp.1, fun hF => ?_⟩
    have hdone := (keeps_visit ((hmem k).mp hk)).1 p h room (hp.1.add_done (hp.2 hF))
    exact hdone.done j rfl
  exact hleaves p h room hl hroom hF

/-- **One call keeps the lesson**, wherever it is interrupted. -/
theorem Lesson.sendMsgs (hl : Lesson order T O r noTable F p h) (room : ℕ) :
    ∃ F', Lesson order T O r noTable F' (p.sendMsgs room).state (h ++ (p.sendMsgs room).out) := by
  obtain ⟨hvisits, hstages⟩ := hl.visits room
  rw [Peer.sendMsgs, Sender.seq, Sender.andThen]
  generalize Sender.each Peer.visit p.visitOrder p room = s at hvisits hstages ⊢
  rcases hroom : s.room with - | room'
  · exact ⟨F, hvisits⟩
  · dsimp only
    rw [Sender.skipIf, hvisits.flag, ← List.append_assoc]
    rcases F with - | -
    · rw [if_neg Bool.false_ne_true]
      rcases room' with - | room'
      · refine ⟨false, ?_⟩
        show Lesson order T O r noTable false s.state (h ++ s.out ++ [])
        rwa [List.append_nil]
      · exact ⟨true, hvisits.finish (hstages (by rw [hroom]; exact Option.some_ne_none _) rfl)⟩
    · rw [if_pos rfl, List.append_nil]
      exact ⟨true, hvisits⟩

end Calls

end SmartHAProxy
