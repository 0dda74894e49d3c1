/-
The order of the queues (queue.c).

A key has the class of a request in its upper 12 bits and the date it is due in its lower 20,
in milliseconds; that date wraps around.  `queueRank` is the order that the key means at a
date: the class first, then how far the date is beyond the boundary of the look-back window.
`pendconnFirst` finds the least rank of a tree by two lookups, and `serverFirst` compares the
ranks of two trees by a third formula.  They agree wherever the boundary stands.

Main results: `processNextStrm_spec`, by `pendconnFirst_spec`, and `servesInOrder`.
-/
import SmartHAProxy.Queue.Pendconn
import Mathlib.Data.Prod.Lex

namespace SmartHAProxy

/-! ### Lookups -/

namespace EbTree

variable {κ α : Type*} [LinearOrder κ] {t : EbTree κ α} {n : κ × α}

theorem firstNode_spec (h : t.firstNode = some n) : n ∈ t.nodes ∧ ∀ m ∈ t.nodes, n.1 ≤ m.1 := by
  obtain ⟨l, hl⟩ := List.head?_eq_some_iff.mp h
  have hsorted := hl ▸ t.sorted
  rw [hl]
  refine ⟨List.mem_cons_self, fun m hm => ?_⟩
  rcases List.mem_cons.mp hm with rfl | hm
  · exact le_refl _
  · exact (List.pairwise_cons.mp hsorted).1 m hm

theorem lookupGe_spec {key : κ} (h : t.lookupGe key = some n) :
    n ∈ t.nodes ∧ key ≤ n.1 ∧ ∀ m ∈ t.nodes, key ≤ m.1 → n.1 ≤ m.1 := by
  obtain ⟨hkey, pre, post, hl, hpre⟩ := List.find?_eq_some_iff_append.mp h
  have hsorted := hl ▸ t.sorted
  rw [hl]
  refine ⟨List.mem_append_right pre List.mem_cons_self, of_decide_eq_true hkey, fun m hm hle => ?_⟩
  rcases List.mem_append.mp hm with hm | hm
  · exact absurd hle (by simpa using hpre m hm)
  · rcases List.mem_cons.mp hm with rfl | hm
    · exact le_refl _
    · exact (List.pairwise_cons.mp (List.pairwise_append.mp hsorted).2.1).1 m hm

theorem lookupGe_none {key : κ} (h : t.lookupGe key = none) : ∀ m ∈ t.nodes, m.1 < key :=
  fun m hm => by simpa using List.find?_eq_none.mp h m hm

end EbTree

/-! ### The parts of a key -/

theorem toNat_keyOffset (key : UInt32) : (keyOffset key).toNat = key.toNat % 2 ^ 20 := by
  rw [keyOffset, UInt32.toNat_and]
  exact Nat.and_two_pow_sub_one_eq_mod key.toNat 20

theorem toNat_keyClass (key : UInt32) : (keyClass key).toNat = key.toNat / 2 ^ 20 * 2 ^ 20 := by
  have hlt := key.toNat_lt
  have hdiv : (key.toNat &&& 0xfff00000) / 2 ^ 20 = key.toNat / 2 ^ 20 := by
    rw [Nat.and_div_two_pow]
    show key.toNat / 2 ^ 20 &&& 2 ^ 12 - 1 = _
    rw [Nat.and_two_pow_sub_one_eq_mod]
    omega
  have hmod : (key.toNat &&& 0xfff00000) % 2 ^ 20 = 0 := by
    rw [Nat.and_mod_two_pow]
    exact Nat.and_zero _
  have hsplit := Nat.div_add_mod (key.toNat &&& 0xfff00000) (2 ^ 20)
  rw [hdiv, hmod] at hsplit
  rw [keyClass, UInt32.toNat_and]
  show key.toNat &&& 0xfff00000 = _
  omega

theorem toNat_nowOffsetBoundary (nowMs : UInt32) :
    (nowOffsetBoundary nowMs).toNat = (nowMs.toNat + 2 ^ 19) % 2 ^ 20 := by
  have hlt := nowMs.toNat_lt
  have hback : timerLookBack >>> (12 : UInt32) = 524288 := by decide
  rw [nowOffsetBoundary, hback, UInt32.toNat_and]
  refine (Nat.and_two_pow_sub_one_eq_mod _ 20).trans ?_
  rw [UInt32.toNat_sub]
  show (2 ^ 32 - 524288 + nowMs.toNat) % 2 ^ 32 % 2 ^ 20 = _
  omega

theorem toNat_keyClassOffsetBoundary (nowMs key : UInt32) :
    (keyClassOffsetBoundary nowMs key).toNat =
      key.toNat / 2 ^ 20 * 2 ^ 20 + (nowOffsetBoundary nowMs).toNat := by
  have hlt : (nowOffsetBoundary nowMs).toNat < 2 ^ 20 := by
    rw [toNat_nowOffsetBoundary]
    exact Nat.mod_lt _ (Nat.two_pow_pos 20)
  rw [keyClassOffsetBoundary, UInt32.toNat_or, toNat_keyClass, Nat.mul_comm,
    Nat.two_pow_add_eq_or_of_lt hlt]

/-! ### Ranks -/

/-- `(key offset - NOW_OFFSET_BOUNDARY) mod 2^20`. -/
def keyAge (nowMs key : UInt32) : ℕ :=
  (key.toNat % 2 ^ 20 + 2 ^ 20 - (nowOffsetBoundary nowMs).toNat) % 2 ^ 20

/-- The class of a key, and how far its date is beyond the boundary. -/
def queueRank (nowMs key : UInt32) : ℕ ×ₗ ℕ := toLex (key.toNat / 2 ^ 20, keyAge nowMs key)

theorem queueRank_le_iff {nowMs key key' : UInt32} :
    queueRank nowMs key ≤ queueRank nowMs key' ↔ key.toNat / 2 ^ 20 < key'.toNat / 2 ^ 20 ∨
      key.toNat / 2 ^ 20 = key'.toNat / 2 ^ 20 ∧ keyAge nowMs key ≤ keyAge nowMs key' :=
  Prod.Lex.le_iff

theorem keyAge_eq (nowMs key : UInt32) :
    keyAge nowMs key + (nowOffsetBoundary nowMs).toNat =
      if key.toNat % 2 ^ 20 < (nowOffsetBoundary nowMs).toNat then key.toNat % 2 ^ 20 + 2 ^ 20
      else key.toNat % 2 ^ 20 := by
  have hlt : (nowOffsetBoundary nowMs).toNat < 2 ^ 20 := by
    rw [toNat_nowOffsetBoundary]
    exact Nat.mod_lt _ (Nat.two_pow_pos 20)
  rw [keyAge]
  generalize (nowOffsetBoundary nowMs).toNat = bound at hlt ⊢
  split_ifs <;> omega

/-- **The first pendconn of a tree has the least rank.** -/
theorem pendconnFirst_spec {nowMs : UInt32} {t : EbTree UInt32 ℕ} {n : UInt32 × ℕ}
    (h : pendconnFirst nowMs t = some n) :
    n ∈ t.nodes ∧ ∀ m ∈ t.nodes, queueRank nowMs n.1 ≤ queueRank nowMs m.1 := by
  rw [pendconnFirst] at h
  cases hfirst : t.firstNode with
  | none =>
    rw [hfirst] at h
    cases h
  | some n₀ =>
    obtain ⟨hmem₀, hmin₀⟩ := EbTree.firstNode_spec hfirst
    have hbound := toNat_keyClassOffsetBoundary nowMs n₀.1
    rw [hfirst] at h
    dsimp only at h
    cases hge : t.lookupGe (keyClassOffsetBoundary nowMs n₀.1) with
    | none =>
      -- all dates of the first class lie before the boundary
      rw [hge] at h
      obtain rfl := Option.some.inj h
      refine ⟨hmem₀, fun m hm => ?_⟩
      have hle := UInt32.le_iff_toNat_le.mp (hmin₀ m hm)
      have hlt := UInt32.lt_iff_toNat_lt.mp (EbTree.lookupGe_none hge m hm)
      have hlt₀ := UInt32.lt_iff_toNat_lt.mp (EbTree.lookupGe_none hge n₀ hmem₀)
      have hage := keyAge_eq nowMs m.1
      have hage₀ := keyAge_eq nowMs n₀.1
      rw [hbound] at hlt hlt₀
      rw [queueRank_le_iff]
      split_ifs at hage hage₀ <;> omega
    | some n₂ =>
      obtain ⟨hmem₂, hge₂, hmin₂⟩ := EbTree.lookupGe_spec hge
      have hge₂' := UInt32.le_iff_toNat_le.mp hge₂
      have hle₀ := UInt32.le_iff_toNat_le.mp (hmin₀ n₂ hmem₂)
      rw [hge] at h
      dsimp only at h
      by_cases hclass : keyClass n₂.1 = keyClass n₀.1
      · -- the date found is the first one beyond the boundary
        rw [if_neg (not_not.mpr hclass)] at h
        obtain rfl := Option.some.inj h
        have hclass' := congrArg UInt32.toNat hclass
        rw [toNat_keyClass, toNat_keyClass] at hclass'
        refine ⟨hmem₂, fun m hm => ?_⟩
        have hle := UInt32.le_iff_toNat_le.mp (hmin₀ m hm)
        have hage := keyAge_eq nowMs m.1
        have hage₂ := keyAge_eq nowMs n₂.1
        rw [hbound] at hge₂'
        rw [queueRank_le_iff]
        by_cases hbeyond : keyClassOffsetBoundary nowMs n₀.1 ≤ m.1
        · have hle₂ := UInt32.le_iff_toNat_le.mp (hmin₂ m hm hbeyond)
          split_ifs at hage hage₂ <;> omega
        · have hlt := UInt32.lt_iff_toNat_lt.mp (UInt32.not_le.mp hbeyond)
          rw [hbound] at hlt
          split_ifs at hage hage₂ <;> omega
      · rw [if_pos hclass] at h
        obtain rfl := Option.some.inj h
        have hclass' : n₂.1.toNat / 2 ^ 20 ≠ n₀.1.toNat / 2 ^ 20 := by
          intro heq
          apply hclass
          apply UInt32.toNat.inj
          rw [toNat_keyClass, toNat_keyClass, heq]
        refine ⟨hmem₀, fun m hm => ?_⟩
        have hle := UInt32.le_iff_toNat_le.mp (hmin₀ m hm)
        have hage := keyAge_eq nowMs m.1
        have hage₀ := keyAge_eq nowMs n₀.1
        have hnot : keyClassOffsetBoundary nowMs n₀.1 ≤ m.1 →
            n₂.1.toNat ≤ m.1.toNat := fun hbeyond =>
          UInt32.le_iff_toNat_le.mp (hmin₂ m hm hbeyond)
        have hnot₀ : keyClassOffsetBoundary nowMs n₀.1 ≤ n₀.1 →
            n₂.1.toNat ≤ n₀.1.toNat := fun hbeyond =>
          UInt32.le_iff_toNat_le.mp (hmin₂ n₀ hmem₀ hbeyond)
        rw [UInt32.le_iff_toNat_le, hbound] at hnot hnot₀
        rw [queueRank_le_iff]
        split_ifs at hage hage₀ <;> omega

theorem pendconnFirst_eq_none {nowMs : UInt32} {t : EbTree UInt32 ℕ}
    (h : pendconnFirst nowMs t = none) : t.nodes = [] := by
  rw [pendconnFirst] at h
  cases hfirst : t.firstNode with
  | none => exact List.head?_eq_none_iff.mp hfirst
  | some n₀ =>
    rw [hfirst] at h
    dsimp only at h
    cases hge : t.lookupGe (keyClassOffsetBoundary nowMs n₀.1) with
    | none =>
      rw [hge] at h
      cases h
    | some n₂ =>
      rw [hge] at h
      dsimp only at h
      split_ifs at h

theorem serverFirst_iff (nowMs pkey ppkey : UInt32) :
    serverFirst nowMs pkey ppkey = true ↔ queueRank nowMs pkey ≤ queueRank nowMs ppkey := by
  have hfuture (key : UInt32) : (if keyOffset key < nowOffsetBoundary nowMs
      then keyOffset key + 0x100000 else keyOffset key).toNat =
        keyAge nowMs key + (nowOffsetBoundary nowMs).toNat := by
    have hlt : key.toNat % 2 ^ 20 < 2 ^ 20 := Nat.mod_lt _ (Nat.two_pow_pos 20)
    have hiff : keyOffset key < nowOffsetBoundary nowMs ↔
        key.toNat % 2 ^ 20 < (nowOffsetBoundary nowMs).toNat := by
      rw [UInt32.lt_iff_toNat_lt, toNat_keyOffset]
    rw [keyAge_eq]
    by_cases hoff : keyOffset key < nowOffsetBoundary nowMs
    · rw [if_pos hoff, if_pos (hiff.mp hoff), UInt32.toNat_add, toNat_keyOffset]
      show (key.toNat % 2 ^ 20 + 1048576) % 2 ^ 32 = _
      exact Nat.mod_eq_of_lt (by omega)
    · rw [if_neg hoff, if_neg (mt hiff.mpr hoff), toNat_keyOffset]
  have hclass (key key' : UInt32) : keyClass key < keyClass key' ↔
      key.toNat / 2 ^ 20 < key'.toNat / 2 ^ 20 := by
    rw [UInt32.lt_iff_toNat_lt, toNat_keyClass, toNat_keyClass]
    omega
  rw [serverFirst, queueRank_le_iff]
  by_cases hlt : keyClass pkey < keyClass ppkey
  · rw [if_pos hlt]
    exact ⟨fun _ => .inl ((hclass _ _).mp hlt), fun _ => rfl⟩
  · rw [if_neg hlt]
    have hlt' := mt (hclass _ _).mpr hlt
    by_cases hgt : keyClass ppkey < keyClass pkey
    · rw [if_pos hgt]
      have hgt' := (hclass _ _).mp hgt
      exact ⟨fun h => absurd h Bool.false_ne_true, by omega⟩
    · rw [if_neg hgt]
      have hgt' := mt (hclass _ _).mpr hgt
      rw [decide_eq_true_iff, UInt32.le_iff_toNat_le, hfuture, hfuture]
      omega

/-! ### The choice -/

variable {σ ι L : Type*} [DecidableEq σ] [DecidableEq ι]
variable {st : Queues σ ι L} {srv : ι} {pxOk : Bool}

/-- The queue is looked at on behalf of the server: its own one, and that of the proxy if the
server may take requests from there. -/
def Queues.Considered (st : Queues σ ι L) (srv : ι) (pxOk : Bool) (q : Option ι) : Prop :=
  (q = some srv ∨ q = none ∧ pxOk = true) ∧ (st.queue q).length ≠ 0

/-- `n` is the pendconn to be served next: its rank is the least one of all queues considered,
and the queue of the server wins ties. -/
structure Queues.Next (st : Queues σ ι L) (nowMs : UInt32) (srv : ι) (pxOk : Bool)
    (q : Option ι) (n : UInt32 × ℕ) : Prop where
  considered : st.Considered srv pxOk q
  mem : n ∈ (st.queue q).head.nodes
  least : ∀ q', st.Considered srv pxOk q' → ∀ m ∈ (st.queue q').head.nodes,
    queueRank nowMs n.1 ≤ queueRank nowMs m.1
  ties : q = none → st.Considered srv pxOk (some srv) →
    ∀ m ∈ (st.queue (some srv)).head.nodes, queueRank nowMs n.1 < queueRank nowMs m.1

theorem handed_unlinkNode (inServer : Bool) (st : Queues σ ι L) (p : ℕ) :
    (pendconnUnlinkNode inServer st p).handed = st.handed := by
  rw [pendconnUnlinkNode]
  cases st.pendconn p with
  | none => rfl
  | some pc =>
    dsimp only
    rw [Queues.deleteNode]
    split <;> rfl

omit [DecidableEq ι] in
theorem handed_assign (st : Queues σ ι L) (p : ℕ) (srv : ι) :
    (pendconnAssign st p srv).handed = st.handed ++ [(p, srv)] := by
  rw [pendconnAssign]
  dsimp only
  split <;> rfl

theorem first_if_spec {nowMs : UInt32} {c : Prop} [Decidable c] {t : EbTree UInt32 ℕ}
    {first : Option (UInt32 × ℕ)} (h : (if c then pendconnFirst nowMs t else none) = first) :
    (first = none → c → t.nodes = []) ∧
      ∀ n, first = some n → c ∧ n ∈ t.nodes ∧
        ∀ m ∈ t.nodes, queueRank nowMs n.1 ≤ queueRank nowMs m.1 := by
  subst h
  constructor
  · intro hnone hc
    rw [if_pos hc] at hnone
    exact pendconnFirst_eq_none hnone
  · intro n hsome
    by_cases hc : c
    · rw [if_pos hc] at hsome
      exact ⟨hc, pendconnFirst_spec hsome⟩
    · rw [if_neg hc] at hsome
      cases hsome

omit [DecidableEq σ] [DecidableEq ι] in
theorem considered_server : st.Considered srv pxOk (some srv) ↔ (st.queue (some srv)).length ≠ 0 :=
  ⟨fun h => h.2, fun h => ⟨.inl rfl, h⟩⟩

omit [DecidableEq σ] [DecidableEq ι] in
theorem considered_proxy : st.Considered srv pxOk none ↔ pxOk = true ∧ (st.queue none).length ≠ 0 :=
  ⟨fun h => ⟨h.1.elim (fun heq => by cases heq) fun h => h.2, h.2⟩, fun h => ⟨.inr ⟨rfl, h.1⟩, h.2⟩⟩

omit [DecidableEq σ] [DecidableEq ι] in
theorem Queues.Considered.forall_nodes {q : Option ι} {R : UInt32 × ℕ → Prop}
    (h : st.Considered srv pxOk q)
    (hserver : (st.queue (some srv)).length ≠ 0 → ∀ m ∈ (st.queue (some srv)).head.nodes, R m)
    (hproxy : pxOk = true ∧ (st.queue none).length ≠ 0 → ∀ m ∈ (st.queue none).head.nodes, R m) :
    ∀ m ∈ (st.queue q).head.nodes, R m := by
  obtain ⟨rfl | ⟨rfl, hok⟩, hlen⟩ := h
  · exact hserver hlen
  · exact hproxy ⟨hok, hlen⟩

theorem forall_mem_of_nil {α : Type*} {l : List α} {R : α → Prop} (h : l = []) : ∀ m ∈ l, R m :=
  h ▸ fun _ hm => absurd hm List.not_mem_nil

/-- **The pendconn that is chosen has the least rank.**  Nothing is chosen if and only if the
queues considered are empty. -/
theorem processNextStrm_spec (nowMs : UInt32) (st : Queues σ ι L) (srv : ι) (pxOk : Bool) :
    match pendconnProcessNextStrm nowMs st srv pxOk with
    | none => ∀ q, st.Considered srv pxOk q → (st.queue q).head.nodes = []
    | some st' => ∃ q n, st.Next nowMs srv pxOk q n ∧ st'.handed = st.handed ++ [(n.2, srv)] := by
  rw [pendconnProcessNextStrm]
  dsimp only
  generalize hp : (if (st.queue (some srv)).length ≠ 0 then
    pendconnFirst nowMs (st.queue (some srv)).head else none) = p
  generalize hpp : (if pxOk = true ∧ (st.queue none).length ≠ 0 then
    pendconnFirst nowMs (st.queue none).head else none) = pp
  obtain ⟨hnoneS, hsomeS⟩ := first_if_spec hp
  obtain ⟨hnoneP, hsomeP⟩ := first_if_spec hpp
  cases p with
  | none =>
    have hserver : st.Considered srv pxOk (some srv) → (st.queue (some srv)).head.nodes = [] :=
      fun h => hnoneS rfl (considered_server.mp h)
    cases pp with
    | none =>
      intro q hq
      apply List.eq_nil_iff_forall_not_mem.mpr
      exact hq.forall_nodes (fun h => forall_mem_of_nil (hnoneS rfl h))
        fun h => forall_mem_of_nil (hnoneP rfl h)
    | some pp =>
      obtain ⟨hc, hmem, hleast⟩ := hsomeP pp rfl
      refine ⟨none, pp, ⟨considered_proxy.mpr hc, hmem, fun q' hq' => ?_,
        fun _ h => forall_mem_of_nil (hserver h)⟩, ?_⟩
      · exact hq'.forall_nodes (fun h => forall_mem_of_nil (hnoneS rfl h)) fun _ => hleast
      · show (pendconnAssign (pendconnUnlinkPrx st pp.2) pp.2 srv).handed = _
        rw [handed_assign, pendconnUnlinkPrx, handed_unlinkNode]
  | some p =>
    obtain ⟨hc, hmem, hleast⟩ := hsomeS p rfl
    have huse : ((pendconnUnlinkSrv (pendconnAssign st p.2 srv) p.2).updQueue (some srv)
        Queue.advance).handed = st.handed ++ [(p.2, srv)] := by
      show (pendconnUnlinkSrv (pendconnAssign st p.2 srv) p.2).handed = _
      rw [pendconnUnlinkSrv, handed_unlinkNode, handed_assign]
    cases pp with
    | none =>
      refine ⟨some srv, p, ⟨considered_server.mpr hc, hmem, fun q' hq' => ?_, nofun⟩, huse⟩
      exact hq'.forall_nodes (fun _ => hleast) fun h => forall_mem_of_nil (hnoneP rfl h)
    | some pp =>
      obtain ⟨hcP, hmemP, hleastP⟩ := hsomeP pp rfl
      dsimp only
      -- both queues have a first one, which are compared
      by_cases hfirst : serverFirst nowMs p.1 pp.1 = true
      · rw [if_pos hfirst]
        have hle := (serverFirst_iff nowMs p.1 pp.1).mp hfirst
        refine ⟨some srv, p, ⟨considered_server.mpr hc, hmem, fun q' hq' => ?_, nofun⟩, huse⟩
        exact hq'.forall_nodes (fun _ => hleast) fun _ m hm => hle.trans (hleastP m hm)
      · rw [if_neg hfirst]
        have hlt := not_le.mp (mt (serverFirst_iff nowMs p.1 pp.1).mpr hfirst)
        refine ⟨none, pp, ⟨considered_proxy.mpr hcP, hmemP, fun q' hq' => ?_,
          fun _ _ m hm => hlt.trans_le (hleast m hm)⟩, ?_⟩
        · exact hq'.forall_nodes (fun _ m hm => hlt.le.trans (hleast m hm)) fun _ => hleastP
        · show (pendconnAssign (pendconnUnlinkPrx st pp.2) pp.2 srv).handed = _
          rw [handed_assign, pendconnUnlinkPrx, handed_unlinkNode]

/-! ### Dates -/

theorem toNat_ofInt (x : ℤ) : ((UInt32.ofInt x).toNat : ℤ) = x % 2 ^ 32 := by
  have hnonneg : 0 ≤ x % 2 ^ 32 := Int.emod_nonneg x (by decide)
  have hlt : x % 2 ^ 32 < 2 ^ 32 := Int.emod_lt_of_pos x (by decide)
  rw [UInt32.ofInt, UInt32.toNat_ofNat_of_lt' (show _ < 4294967296 by omega)]
  exact Int.toNat_of_nonneg hnonneg

theorem makeKey_class (nowMs : UInt32) (cls offset : ℤ) :
    (makeKey nowMs cls offset).toNat / 2 ^ 20 =
      (UInt32.ofInt (cls + 0x7ff) <<< (20 : UInt32)).toNat / 2 ^ 20 := by
  rw [makeKey, UInt32.toNat_or, Nat.or_div_two_pow, UInt32.toNat_and]
  have hzero : ((nowMs + UInt32.ofInt offset).toNat &&& 0xfffff) / 2 ^ 20 = 0 := by
    apply Nat.div_eq_of_lt
    exact Nat.lt_of_le_of_lt Nat.and_le_right (by decide)
  exact (congrArg (_ ||| ·) hzero).trans (Nat.or_zero _)

theorem makeKey_date (nowMs : UInt32) (cls offset : ℤ) :
    (makeKey nowMs cls offset).toNat % 2 ^ 20 = (nowMs + UInt32.ofInt offset).toNat % 2 ^ 20 := by
  have hzero : (UInt32.ofInt (cls + 0x7ff) <<< (20 : UInt32)).toNat % 2 ^ 20 = 0 := by
    rw [UInt32.toNat_shiftLeft]
    show (UInt32.ofInt (cls + 0x7ff)).toNat <<< 20 % 2 ^ 32 % 2 ^ 20 = 0
    rw [Nat.shiftLeft_eq]
    omega
  rw [makeKey, UInt32.toNat_or, Nat.or_mod_two_pow, hzero, Nat.zero_or, UInt32.toNat_and]
  refine (congrArg (· % 2 ^ 20) (Nat.and_two_pow_sub_one_eq_mod _ 20)).trans ?_
  exact Nat.mod_mod _ _

theorem keyAge_makeKey (t e cls off : ℤ) :
    (keyAge (.ofInt t) (makeKey (.ofInt e) cls off) : ℤ) = (e + off - t + 2 ^ 19) % 2 ^ 20 := by
  have ht := toNat_ofInt t
  have hsum := toNat_ofInt (e + off)
  rw [UInt32.ofInt_add] at hsum
  rw [keyAge, makeKey_date, toNat_nowOffsetBoundary]
  generalize (UInt32.ofInt e + UInt32.ofInt off).toNat = key at hsum ⊢
  generalize (UInt32.ofInt t).toNat = now at ht ⊢
  omega

/-- A request that was queued at date `e` with the offset `off` and is due, at date `t`, not
longer than the look-back window. -/
structure InWindow (t e off : ℤ) : Prop where
  queued : e ≤ t
  offset : -0x7ffff ≤ off ∧ off ≤ 0x7ffff
  due : t - (e + off) ≤ 2 ^ 19

theorem date_le_of_rank_le {t cls e off e' off' : ℤ} (h : InWindow t e off)
    (h' : InWindow t e' off')
    (hrank : queueRank (.ofInt t) (makeKey (.ofInt e) cls off) ≤
      queueRank (.ofInt t) (makeKey (.ofInt e') cls off')) : e + off ≤ e' + off' := by
  obtain ⟨hqueued, ⟨-, hoffset⟩, hdue⟩ := h
  obtain ⟨hqueued', ⟨-, hoffset'⟩, hdue'⟩ := h'
  have hage := keyAge_makeKey t e cls off
  have hage' := keyAge_makeKey t e' cls off'
  rw [queueRank_le_iff, makeKey_class, makeKey_class] at hrank
  have hle := (hrank.resolve_left (Nat.lt_irrefl _)).2
  generalize keyAge (.ofInt t) (makeKey (.ofInt e) cls off) = age at hage hle
  generalize keyAge (.ofInt t) (makeKey (.ofInt e') cls off') = age' at hage' hle
  omega

/-- What the server gets at date `t`: nothing if the queues considered are empty, else the next
one; of the requests of its class whose dates meet `window` it is the one that is due first. -/
def ServesInOrder (window : ℤ → ℤ → ℤ → Prop) (t : ℤ) (st : Queues σ ι L) (srv : ι) (pxOk : Bool) :
    Prop :=
  match pendconnProcessNextStrm (.ofInt t) st srv pxOk with
  | none => ∀ q, st.Considered srv pxOk q → (st.queue q).head.nodes = []
  | some st' => ∃ q n, st.Next (.ofInt t) srv pxOk q n ∧ st'.handed = st.handed ++ [(n.2, srv)] ∧
      ∀ q', st.Considered srv pxOk q' → ∀ m ∈ (st.queue q').head.nodes, ∀ cls e off e' off',
        n.1 = makeKey (.ofInt e) cls off → m.1 = makeKey (.ofInt e') cls off' →
        window t e off → window t e' off' → e + off ≤ e' + off'

/-- **Requests are served by class, and within a class by the dates they are due.** -/
theorem servesInOrder (t : ℤ) (st : Queues σ ι L) (srv : ι) (pxOk : Bool) :
    ServesInOrder InWindow t st srv pxOk := by
  have hspec := processNextStrm_spec (.ofInt t) st srv pxOk
  rw [ServesInOrder]
  cases hnext : pendconnProcessNextStrm (.ofInt t) st srv pxOk with
  | none =>
    rw [hnext] at hspec
    exact hspec
  | some st' =>
    rw [hnext] at hspec
    obtain ⟨q, n, hn, hhanded⟩ := hspec
    refine ⟨q, n, hn, hhanded, fun q' hq' m hm cls e off e' off' hkey hkey' hwin hwin' => ?_⟩
    have hrank := hn.least q' hq' m hm
    rw [hkey, hkey'] at hrank
    exact date_le_of_rank_le hwin hwin' hrank

/-- A request that has waited for less than the look-back window. -/
structure Waiting (t e off : ℤ) : Prop where
  queued : e ≤ t
  offset : -0x7ffff ≤ off ∧ off ≤ 0x7ffff
  waited : t - e < 2 ^ 19

/-- The queue of a proxy at date 2: one request was queued at date 0 with the smallest offset, and
another one at date 1 with none. -/
def twoDates : Queues Bool Unit Unit where
  back := { srv := fun _ => serverS1, px := newProxy [()] nodup_unit }
  redisp := false
  persist := false
  track := fun _ => none
  takeConn := none
  queue := fun _ =>
    { head := (EbTree.empty.insert (makeKey 0 0 (-0x7ffff)) 0).insert (makeKey 1 0 0) 1
      idx := 0
      length := 2
      nbpendMax := 2 }
  totpend := 2
  strm := fun _ => ⟨⟨false, true, false, false⟩, none, none, none, 0, 0, 0, 0⟩
  pendconn := fun _ => none
  allocated := 2
  handed := []

/-- A request with a negative offset may be overdue by more than the window, though it has hardly
waited: it is taken for one that is due in the future. -/
theorem not_servesInOrder :
    ¬ ∀ (t : ℤ) (st : Queues Bool Unit Unit) (srv : Unit) (pxOk : Bool),
      ServesInOrder Waiting t st srv pxOk := by
  intro h
  have hserves := h 2 twoDates () false
  have hconsidered : twoDates.Considered () false (some ()) := ⟨.inl rfl, by decide⟩
  have hnodes (q : Option Unit) : (twoDates.queue q).head.nodes =
      [(makeKey 1 0 0, 1), (makeKey 0 0 (-0x7ffff), 0)] := by
    show (twoDates.queue none).head.nodes = _
    decide
  rw [ServesInOrder] at hserves
  split at hserves
  · exact absurd ((hnodes _).symm.trans (hserves _ hconsidered)) (List.cons_ne_nil _ _)
  · obtain ⟨q, n, hnext, -, horder⟩ := hserves
    have hmem := hnodes q ▸ hnext.mem
    rcases List.mem_cons.mp hmem with rfl | hmem
    · have hle := horder _ hconsidered (makeKey 0 0 (-0x7ffff), 0)
        (hnodes _ ▸ List.mem_cons_of_mem _ List.mem_cons_self) 0 1 0 0 (-0x7ffff) rfl rfl
        ⟨by decide, by decide, by decide⟩ ⟨by decide, by decide, by decide⟩
      exact absurd hle (by decide)
    · obtain rfl := List.mem_singleton.mp hmem
      have hleast := hnext.least _ hconsidered (makeKey 1 0 0, 1)
        (hnodes _ ▸ List.mem_cons_self)
      rw [queueRank_le_iff] at hleast
      revert hleast
      decide

end SmartHAProxy
