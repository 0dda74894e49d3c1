/-
What `stktable_trash_expired` leaves in a table.

The keys of the tree are readings of a 32-bit clock, compared as unsigned numbers.  The
walk starts half a turn before the current date, so that it meets them in the order of
their dates, first those of the upper part of the tree, then those of the lower part.
An entry that is postponed over the wrap of the clock gets a smaller key than the one
it is found under; the walk then takes it for the next one (`Crossing`) and ends there,
before all the nodes that it has not seen.

`trashExpired_swept_iff` says exactly when this does no harm.
-/
import SmartHAProxy.Stick.Table

namespace SmartHAProxy

variable {ι : Type} [DecidableEq ι]
variable {r : StkTable ι} {R : List (UInt32 × ι)} {exps : EbTree UInt32 ι}

namespace StkTable

/-! ### Dates -/

/-- The date of a reading, in the turn that starts half a turn before now. -/
def date (nowMs k : UInt32) : ℤ := dateFrom (nowMs.toNat - 2 ^ 31) k

/-- `now_ms - TIMER_LOOK_BACK`. -/
def base (nowMs : UInt32) : UInt32 := nowMs - UInt32.ofNat (2 ^ 31)

/-- The dates of a table, half a turn or less from the current one: every stored entry
that has a date is linked once, under a key that is not later. -/
structure Filed (t : StkTable ι) (nowMs : UInt32) : Prop where
  once : t.exps.items.Nodup
  stored : ∀ i ∈ t.keys, t.expire i ≠ 0 → ∃ key, (key, i) ∈ t.exps.nodes
  isset : ∀ n ∈ t.exps.nodes, n.1 ≠ 0
  recent : ∀ n ∈ t.exps.nodes, (nowMs.toNat : ℤ) - 2 ^ 31 < date nowMs n.1
  older : ∀ n ∈ t.exps.nodes, t.expire n.2 ≠ 0 → date nowMs n.1 ≤ date nowMs (t.expire n.2)

/-- What is expected of the table afterwards: what is stored is referenced or has not
expired; as long as the tree has entries, the next date is set and not after the date of
an entry that is not referenced. -/
def Swept (nowMs : UInt32) (t : StkTable ι) : Prop :=
  (∀ i ∈ t.keys, t.refCnt i ≠ 0 ∨ tickIsExpired (t.expire i) nowMs = false) ∧
    (t.exps.nodes ≠ [] → t.expNext ≠ 0 ∧ ∀ n ∈ t.exps.nodes, t.refCnt n.2 = 0 →
      t.expire n.2 ≠ 0 → date nowMs t.expNext ≤ date nowMs (t.expire n.2))

theorem tick_nowMs (nowMs : UInt32) : tick (nowMs.toNat : ℤ) = nowMs := by
  apply UInt32.toNat_inj.mp
  have h := toNat_tick (nowMs.toNat : ℤ)
  have hlt := nowMs.toNat_lt
  omega

theorem base_eq (nowMs : UInt32) : base nowMs = tick ((nowMs.toNat : ℤ) - 2 ^ 31) := by
  rw [base, ← tick_sub, tick_nowMs]
  rfl

@[simp] theorem tick_date (nowMs k : UInt32) : tick (date nowMs k) = k := tick_dateFrom _ k

theorem date_lt (nowMs k : UInt32) : date nowMs k < nowMs.toNat + 2 ^ 31 := by
  have h := dateFrom_lt ((nowMs.toNat : ℤ) - 2 ^ 31) k
  rw [date]
  omega

omit [DecidableEq ι] in
theorem due_iff {nowMs : UInt32} {n : UInt32 × ι}
    (h : (nowMs.toNat : ℤ) - 2 ^ 31 < date nowMs n.1) :
    due nowMs n = true ↔ date nowMs n.1 ≤ nowMs.toNat := by
  have hlt := date_lt nowMs n.1
  have hsign := signBit_sub_iff (d := (nowMs.toNat : ℤ)) (e := date nowMs n.1)
    (by omega) (by omega)
  rw [tick_nowMs, tick_date] at hsign
  rw [due, tickIsLt, Bool.not_eq_true', Bool.eq_false_iff, ne_eq, hsign]
  exact not_lt

theorem tickIsExpired_iff {nowMs k : UInt32} (hset : k ≠ 0)
    (h : (nowMs.toNat : ℤ) - 2 ^ 31 < date nowMs k) :
    tickIsExpired k nowMs = true ↔ date nowMs k ≤ nowMs.toNat := by
  have hlt := date_lt nowMs k
  have hexp : tickIsExpired (tick (date nowMs k)) (tick (nowMs.toNat : ℤ)) = true ↔
      date nowMs k ≤ (nowMs.toNat : ℤ) :=
    tickIsExpired_tick (by omega) hlt (by rwa [tick_date])
  rwa [tick_date, tick_nowMs] at hexp

theorem date_le_date {nowMs k l : UInt32} (hkl : k ≤ l)
    (h : base nowMs ≤ k ∨ l < base nowMs) : date nowMs k ≤ date nowMs l := by
  rw [base_eq] at h
  exact dateFrom_le_dateFrom hkl h

theorem date_le_wrap {nowMs k l : UInt32} (hk : base nowMs ≤ k) (hl : l < base nowMs) :
    date nowMs k ≤ date nowMs l := by
  rw [base_eq] at hk hl
  exact dateFrom_le_of_wrap hk hl

/-! ### The order of the walk -/

/-- The nodes from the start of the walk on. -/
def upper (t : StkTable ι) (nowMs : UInt32) : List (UInt32 × ι) :=
  t.exps.nodes.filter fun n => base nowMs ≤ n.1

def lower (t : StkTable ι) (nowMs : UInt32) : List (UInt32 × ι) :=
  t.exps.nodes.filter fun n => n.1 < base nowMs

def visitOrder (t : StkTable ι) (nowMs : UInt32) : List (UInt32 × ι) :=
  t.upper nowMs ++ t.lower nowMs

/-- The entry of a node that is due has been postponed to a date whose reading is
smaller than the key of the node. -/
def crossing (t : StkTable ι) (nowMs : UInt32) (n : UInt32 × ι) : Bool :=
  due nowMs n && t.postponed nowMs n && decide (t.expire n.2 < n.1)

/-- When the walk does what it is for.  If no entry is postponed over the wrap: when
something is left for a later date, or no entry that is due is referenced.  If some are:
when the first of them, in the order of the walk, is the earliest of all entries that
are not referenced, apart from those that are seen before it and have expired. -/
def Sweepable (t : StkTable ι) (nowMs : UInt32) : Prop :=
  match (t.visitOrder nowMs).find? (t.crossing nowMs) with
  | none =>
    (∃ n ∈ t.exps.nodes, due nowMs n = false ∨ t.postponed nowMs n = true) ∨
      ∀ n ∈ t.exps.nodes, t.refCnt n.2 = 0
  | some c => ∀ n ∈ t.exps.nodes, n ≠ c → t.refCnt n.2 = 0 → t.expire n.2 ≠ 0 →
      date nowMs (t.expire c.2) ≤ date nowMs (t.expire n.2) ∨
        (n ∈ (t.visitOrder nowMs).takeWhile (fun m => !t.crossing nowMs m) ∧
          tickIsExpired (t.expire n.2) nowMs = true)

omit [DecidableEq ι] in
theorem nodes_eq (t : StkTable ι) (nowMs : UInt32) :
    t.exps.nodes = t.lower nowMs ++ t.upper nowMs := by
  have hsplit := EbTree.filter_split (p := fun n : UInt32 × ι => decide (n.1 < base nowMs))
    (t.exps.sorted.imp fun {a b} hab hb => by
      simp only [decide_eq_true_eq] at hb ⊢
      exact hab.trans_lt hb)
  have hupper : (t.exps.nodes.filter fun n => !decide (n.1 < base nowMs)) = t.upper nowMs := by
    apply List.filter_congr
    intro n _
    rw [← decide_not]
    exact decide_eq_decide.mpr not_lt
  rwa [hupper] at hsplit

omit [DecidableEq ι] in
theorem mem_nodes {t : StkTable ι} {nowMs : UInt32} {n : UInt32 × ι} :
    n ∈ t.exps.nodes ↔ n ∈ t.lower nowMs ∨ n ∈ t.upper nowMs := by
  rw [← List.mem_append, ← nodes_eq]

theorem mem_left {t : StkTable ι} {nowMs : UInt32} {P : List (UInt32 × ι)} {i : ι} :
    i ∈ t.left nowMs P ↔ i ∈ t.keys ∧ ∀ p ∈ P, t.expired nowMs p = true → p.2 ≠ i := by
  simp [left]

namespace Filed

variable {t : StkTable ι} {nowMs : UInt32} (h : t.Filed nowMs) {n : UInt32 × ι}
include h

omit [DecidableEq ι]

theorem due_iff (hn : n ∈ t.exps.nodes) : due nowMs n = true ↔ date nowMs n.1 ≤ nowMs.toNat :=
  StkTable.due_iff (h.recent n hn)

theorem recent_expire (hn : n ∈ t.exps.nodes) (hset : t.expire n.2 ≠ 0) :
    (nowMs.toNat : ℤ) - 2 ^ 31 < date nowMs (t.expire n.2) :=
  (h.recent n hn).trans_le (h.older n hn hset)

theorem isExpired_iff (hn : n ∈ t.exps.nodes) (hset : t.expire n.2 ≠ 0) :
    tickIsExpired (t.expire n.2) nowMs = true ↔ date nowMs (t.expire n.2) ≤ nowMs.toNat :=
  tickIsExpired_iff hset (h.recent_expire hn hset)

theorem postponed_date (hn : n ∈ t.exps.nodes) (hpost : t.postponed nowMs n = true) :
    t.refCnt n.2 = 0 ∧ t.expire n.2 ≠ 0 ∧ (nowMs.toNat : ℤ) < date nowMs (t.expire n.2) ∧
      due nowMs (t.expire n.2, n.2) = false := by
  rw [postponed, free, Bool.and_eq_true, Bool.and_eq_true, decide_eq_true_iff,
    Bool.not_eq_true', tickIsset, bne_iff_ne] at hpost
  obtain ⟨⟨href, hexp⟩, hset⟩ := hpost
  have hlt : (nowMs.toNat : ℤ) < date nowMs (t.expire n.2) := by
    rw [Bool.eq_false_iff, ne_eq, h.isExpired_iff hn hset] at hexp
    exact not_le.mp hexp
  refine ⟨href, hset, hlt, ?_⟩
  have hdue := StkTable.due_iff (n := (t.expire n.2, n.2)) (h.recent_expire hn hset)
  rw [Bool.eq_false_iff, ne_eq, hdue]
  exact not_le.mpr hlt

theorem due_of_expired (hn : n ∈ t.exps.nodes) (hset : t.expire n.2 ≠ 0)
    (hexp : tickIsExpired (t.expire n.2) nowMs = true) : due nowMs n = true := by
  rw [h.isExpired_iff hn hset] at hexp
  rw [h.due_iff hn]
  exact (h.older n hn hset).trans hexp

theorem le_expire_upper {p q : UInt32 × ι} (hp : p ∈ t.upper nowMs) (hq : q ∈ t.upper nowMs)
    (hdueP : due nowMs p = true) (hdueQ : due nowMs q = true) (hpost : t.postponed nowMs p = true)
    (hcross : t.crossing nowMs p = false) : q.1 ≤ t.expire p.2 := by
  obtain ⟨hpn, hpb⟩ := List.mem_filter.mp hp
  obtain ⟨hqn, -⟩ := List.mem_filter.mp hq
  obtain ⟨-, -, hlt, -⟩ := h.postponed_date hpn hpost
  rw [h.due_iff hqn] at hdueQ
  rw [crossing, hdueP, hpost, Bool.and_true, Bool.true_and, decide_eq_false_iff_not, not_lt]
    at hcross
  have hbase : base nowMs ≤ t.expire p.2 := (of_decide_eq_true hpb).trans hcross
  by_contra hle
  have hdate := date_le_date (not_le.mp hle).le (Or.inl hbase)
  omega

theorem le_expire_lower {p q : UInt32 × ι} (hp : p ∈ t.lower nowMs) (hq : q ∈ t.lower nowMs)
    (hdueP : due nowMs p = true) (hdueQ : due nowMs q = true)
    (hpost : t.postponed nowMs p = true) : q.1 ≤ t.expire p.2 ∧ t.expire p.2 < base nowMs := by
  obtain ⟨hpn, hpb⟩ := List.mem_filter.mp hp
  obtain ⟨hqn, hqb⟩ := List.mem_filter.mp hq
  obtain ⟨-, -, hlt, -⟩ := h.postponed_date hpn hpost
  rw [h.due_iff hpn] at hdueP
  rw [h.due_iff hqn] at hdueQ
  have hbase : t.expire p.2 < base nowMs := by
    by_contra hle
    have hdate := date_le_wrap (not_lt.mp hle) (of_decide_eq_true hpb)
    omega
  refine ⟨?_, hbase⟩
  by_contra hle
  have hdate := date_le_date (not_le.mp hle).le (Or.inr (of_decide_eq_true hqb))
  omega

theorem crossing_lower (hn : n ∈ t.lower nowMs) : t.crossing nowMs n = false := by
  rw [crossing, Bool.and_assoc, Bool.and_eq_false_imp]
  intro hdue
  rw [Bool.and_eq_false_imp]
  intro hpost
  rw [decide_eq_false_iff_not, not_lt]
  exact (h.le_expire_lower hn hn hdue hdue hpost).1

theorem due_split {l : List (UInt32 × ι)} (hl : l.Sublist t.exps.nodes)
    (hside : (∀ m ∈ l, base nowMs ≤ m.1) ∨ ∀ m ∈ l, m.1 < base nowMs) :
    l = l.filter (due nowMs) ++ l.filter fun m => !due nowMs m := by
  apply EbTree.filter_split
  apply List.Pairwise.imp_of_mem _ (t.exps.sorted.sublist hl)
  intro a b ha hb hab hdue
  rw [h.due_iff (hl.subset hb)] at hdue
  rw [h.due_iff (hl.subset ha)]
  refine (date_le_date hab ?_).trans hdue
  exact hside.imp (fun hall => hall a ha) fun hall => hall b hb

end Filed

/-! ### A walk without a crossing -/

/-- What is left when all that is due has been treated. -/
structure Clean (t : StkTable ι) (nowMs : UInt32) (r : StkTable ι) : Prop where
  expire : r.expire = t.expire
  refCnt : r.refCnt = t.refCnt
  keys : ∀ i, i ∈ r.keys ↔ i ∈ t.keys ∧
    ∀ n ∈ t.exps.nodes, due nowMs n = true → t.expired nowMs n = true → n.2 ≠ i
  nodes : ∀ n, n ∈ r.exps.nodes ↔
    (n ∈ t.exps.nodes ∧ (due nowMs n = false ∨ t.free n = false)) ∨
      ∃ m ∈ t.exps.nodes, due nowMs m = true ∧ t.postponed nowMs m = true ∧
        n = (t.expire m.2, m.2)
  next : (∃ n ∈ r.exps.nodes, due nowMs n = false ∧ r.expNext = n.1 ∧
      ∀ m ∈ r.exps.nodes, due nowMs m = false → date nowMs n.1 ≤ date nowMs m.1) ∨
    (r.expNext = 0 ∧ ∀ m ∈ r.exps.nodes, due nowMs m = true)

omit [DecidableEq ι] in
/-- Then the table is as expected, unless only entries that are referenced are left and
these are all due. -/
theorem Clean.swept_iff {t : StkTable ι} {nowMs : UInt32} (hc : t.Clean nowMs r)
    (h : t.Filed nowMs) : r.Swept nowMs ↔
      (∃ n ∈ t.exps.nodes, due nowMs n = false ∨ t.postponed nowMs n = true) ∨
        ∀ n ∈ t.exps.nodes, t.refCnt n.2 = 0 := by
  have hstored : ∀ i ∈ r.keys, r.refCnt i ≠ 0 ∨ tickIsExpired (r.expire i) nowMs = false := by
    intro i hi
    rw [hc.expire, hc.refCnt]
    obtain ⟨hkey, hleft⟩ := (hc.keys i).mp hi
    by_contra! hbad
    obtain ⟨href, hexp⟩ := hbad
    rw [ne_eq, Bool.not_eq_false] at hexp
    have hset : t.expire i ≠ 0 := by
      intro hzero
      rw [tickIsExpired, hzero] at hexp
      exact absurd hexp (by simp [tickIsset])
    obtain ⟨key, hmem⟩ := h.stored i hkey hset
    exact hleft (key, i) hmem (h.due_of_expired hmem hset hexp)
      (by simp [expired, free, href, hexp]) rfl
  rcases hc.next with ⟨n, hn, hdue, hnext, hmin⟩ | ⟨hnext, hall⟩
  · -- the walk has ended at a node for later
    refine iff_of_true ⟨hstored, fun _ => ⟨?_, ?_⟩⟩ (Or.inl ?_)
    · rw [hnext]
      rcases (hc.nodes n).mp hn with ⟨hmem, -⟩ | ⟨m, hmem, -, hpost, rfl⟩
      · exact h.isset n hmem
      · exact (h.postponed_date hmem hpost).2.1
    · intro m hm href hset
      rw [hc.refCnt] at href
      rw [hc.expire] at hset ⊢
      rw [hnext]
      rcases (hc.nodes m).mp hm with ⟨hmem, hstay⟩ | ⟨m', hmem, -, hpost, rfl⟩
      · have hdueM : due nowMs m = false := by
          rcases hstay with hdueM | hfree
          · exact hdueM
          · exact absurd hfree (by simp [free, href])
        exact (hmin m hm hdueM).trans (h.older m hmem hset)
      · show date nowMs n.1 ≤ date nowMs (t.expire m'.2)
        exact hmin (t.expire m'.2, m'.2) hm (h.postponed_date hmem hpost).2.2.2
    · rcases (hc.nodes n).mp hn with ⟨hmem, -⟩ | ⟨m, hmem, -, hpost, rfl⟩
      · exact ⟨n, hmem, Or.inl hdue⟩
      · exact ⟨m, hmem, Or.inr hpost⟩
  · -- nothing is left for later
    have hdue : ∀ n ∈ t.exps.nodes, due nowMs n = true := by
      intro n hn
      by_contra hnot
      rw [Bool.not_eq_true] at hnot
      exact absurd (hall n ((hc.nodes n).mpr (Or.inl ⟨hn, Or.inl hnot⟩))) (by simp [hnot])
    have hpost : ∀ n ∈ t.exps.nodes, t.postponed nowMs n = false := by
      intro n hn
      by_contra hnot
      rw [Bool.not_eq_false] at hnot
      have hlater := (h.postponed_date hn hnot).2.2.2
      rw [hall _ ((hc.nodes _).mpr (Or.inr ⟨n, hn, hdue n hn, hnot, rfl⟩))] at hlater
      cases hlater
    constructor
    · rintro ⟨-, hset⟩
      right
      intro n hn
      by_contra href
      have hmem : n ∈ r.exps.nodes := (hc.nodes n).mpr (Or.inl ⟨hn, Or.inr (by simp [free, href])⟩)
      exact (hset (List.ne_nil_of_mem hmem)).1 hnext
    · rintro (⟨n, hn, hlater | hlater⟩ | hfree)
      · rw [hdue n hn] at hlater
        cases hlater
      · rw [hpost n hn] at hlater
        cases hlater
      · refine ⟨hstored, fun hne => ?_⟩
        obtain ⟨n, hn⟩ := List.exists_mem_of_ne_nil _ hne
        rcases (hc.nodes n).mp hn with ⟨hmem, hstay⟩ | ⟨m, hmem, -, hlater, -⟩
        · rcases hstay with hlater | href
          · rw [hdue n hmem] at hlater
            cases hlater
          · exact absurd href (by simp [free, hfree n hmem])
        · rw [hpost m hmem] at hlater
          cases hlater

/-- The parts of the tree that have been visited and that have not. -/
theorem clean_of_parts {t : StkTable ι} {nowMs : UInt32} (P rest : List (UInt32 × ι))
    (hparts : ∀ n, n ∈ t.exps.nodes ↔ n ∈ P ∨ n ∈ rest) (hP : ∀ n ∈ P, due nowMs n = true)
    (hrest : ∀ n ∈ rest, due nowMs n = false) (hexpire : r.expire = t.expire)
    (hrefCnt : r.refCnt = t.refCnt) (hkeys : ∀ i, i ∈ r.keys ↔ i ∈ t.left nowMs P)
    (hnodes : ∀ n, n ∈ r.exps.nodes ↔ (n ∈ P ∧ t.free n = false) ∨ n ∈ rest ∨
      ∃ m ∈ P, t.postponed nowMs m = true ∧ n = (t.expire m.2, m.2))
    (hnext : (∃ n ∈ r.exps.nodes, due nowMs n = false ∧ r.expNext = n.1 ∧
        ∀ m ∈ r.exps.nodes, due nowMs m = false → date nowMs n.1 ≤ date nowMs m.1) ∨
      (r.expNext = 0 ∧ ∀ m ∈ r.exps.nodes, due nowMs m = true)) : t.Clean nowMs r := by
  have hdue : ∀ n ∈ t.exps.nodes, (n ∈ P ↔ due nowMs n = true) := by
    intro n hn
    refine ⟨hP n, fun h => ((hparts n).mp hn).resolve_right fun hmem => ?_⟩
    rw [hrest n hmem] at h
    cases h
  refine ⟨hexpire, hrefCnt, fun i => ?_, fun n => ?_, hnext⟩
  · rw [hkeys, mem_left]
    refine and_congr_right fun _ => ⟨fun h n hn hd => ?_, fun h n hn => ?_⟩
    · exact h n ((hdue n hn).mpr hd)
    · exact h n ((hparts n).mpr (Or.inl hn)) (hP n hn)
  · rw [hnodes]
    constructor
    · rintro (⟨hn, hfree⟩ | hn | ⟨m, hm, hpost, rfl⟩)
      · exact Or.inl ⟨(hparts n).mpr (Or.inl hn), Or.inr hfree⟩
      · exact Or.inl ⟨(hparts n).mpr (Or.inr hn), Or.inl (hrest n hn)⟩
      · exact Or.inr ⟨m, (hparts m).mpr (Or.inl hm), hP m hm, hpost, rfl⟩
    · rintro (⟨hn, hstay⟩ | ⟨m, hm, hd, hpost, rfl⟩)
      · rcases (hparts n).mp hn with hmem | hmem
        · rcases hstay with hd | hfree
          · rw [hP n hmem] at hd
            cases hd
          · exact Or.inl ⟨hmem, hfree⟩
        · exact Or.inr (Or.inl hmem)
      · exact Or.inr (Or.inr ⟨m, (hdue m hm).mpr hd, hpost, rfl⟩)

/-! ### The ends of the walk -/

section Ends

variable {t : StkTable ι} {nowMs : UInt32} {looped : Bool} {fuel : ℕ}

theorem trashLoop_later {n : UInt32 × ι} (hdue : due nowMs n = false) :
    trashLoop nowMs (fuel + 1) t (some n) looped = some { t with expNext := n.1 } := by
  obtain ⟨key, ts⟩ := n
  rw [trashLoop, if_pos (by simpa [due] using hdue)]

theorem trashLoop_end : trashLoop nowMs (fuel + 1) t none true = some { t with expNext := 0 } := by
  rw [trashLoop, if_pos rfl]

theorem trashLoop_empty (hnodes : t.exps.nodes = []) :
    trashLoop nowMs (fuel + 1) t none false = some { t with expNext := 0 } := by
  rw [trashLoop, if_neg Bool.false_ne_true, if_pos (by rw [EbTree.firstNode, hnodes]; rfl)]

theorem trashLoop_again (hnodes : t.exps.nodes ≠ []) :
    trashLoop nowMs (fuel + 1) t none false
      = trashLoop nowMs fuel t t.exps.nodes.head? true := by
  rw [trashLoop, if_neg Bool.false_ne_true, EbTree.firstNode,
    if_neg (by simpa using hnodes)]

omit [DecidableEq ι] in
theorem requeued_nil {P : List (UInt32 × ι)} (h : t.requeued nowMs P R = []) :
    R = [] ∧ ∀ p ∈ P, t.postponed nowMs p = false := by
  constructor
  · apply List.eq_nil_iff_forall_not_mem.mpr
    intro n hn
    have hmem : n ∈ t.requeued nowMs P R := mem_requeued.mpr (Or.inl hn)
    rw [h] at hmem
    cases hmem
  · intro p hp
    by_contra hpost
    have hmem : (t.expire p.2, p.2) ∈ t.requeued nowMs P R :=
      mem_requeued.mpr (Or.inr ⟨p, hp, by simpa using hpost, rfl⟩)
    rw [h] at hmem
    cases hmem

omit [DecidableEq ι] in
theorem Filed.requeued_later (h : t.Filed nowMs) {P : List (UInt32 × ι)}
    (hP : ∀ p ∈ P, p ∈ t.exps.nodes) (hR : ∀ p ∈ R, p ∈ t.exps.nodes ∧ due nowMs p = false)
    {n : UInt32 × ι} (hn : n ∈ t.requeued nowMs P R) :
    (nowMs.toNat : ℤ) < date nowMs n.1 ∧ due nowMs n = false := by
  rcases mem_requeued.mp hn with hmem | ⟨p, hp, hpost, rfl⟩
  · obtain ⟨hnode, hdue⟩ := hR n hmem
    refine ⟨?_, hdue⟩
    rw [Bool.eq_false_iff, ne_eq, h.due_iff hnode] at hdue
    exact not_le.mp hdue
  · exact (h.postponed_date (hP p hp) hpost).2.2

end Ends

/-! ### The walk without a crossing -/

section Phases

variable {t : StkTable ι} {nowMs : UInt32}

theorem upper_walk (h : t.Filed nowMs) {P : List (UInt32 × ι)} (hupper : t.upper nowMs = P ++ R)
    (hdue : ∀ p ∈ P, due nowMs p = true) (hno : ∀ p ∈ P, t.crossing nowMs p = false) (fuel : ℕ) :
    ∃ exps : EbTree UInt32 ι,
      exps.nodes = (t.lower nowMs ++ P.filter fun p => !t.free p) ++ t.requeued nowMs P R ∧
      exps.items.Nodup ∧
      t.trashExpired nowMs (fuel + P.length)
        = trashLoop nowMs fuel { t with exps := exps, keys := t.left nowMs P }
          (t.requeued nowMs P R).head? false := by
  have hmem : ∀ p ∈ P, p ∈ t.upper nowMs := fun p hp => hupper ▸ List.mem_append_left R hp
  have hstart : t.exps.lookupGe (nowMs - UInt32.ofNat (2 ^ 31)) = (P ++ R).head? := by
    rw [← hupper, upper, List.head?_filter]
    rfl
  rw [trashExpired, hstart]
  apply trashLoop_due nowMs false fuel P t (t.lower nowMs) R
  · rw [← hupper]
    exact nodes_eq t nowMs
  · exact h.once
  · exact hdue
  · intro p hp hpost q hq
    exact h.le_expire_upper (hmem p hp) (hmem q hq) (hdue p hp) (hdue q hq) hpost (hno p hp)

/-- It may end there. -/
theorem clean_upper (h : t.Filed nowMs) {P S : List (UInt32 × ι)} {n : UInt32 × ι}
    (hupper : t.upper nowMs = P ++ R) (hdue : ∀ p ∈ P, due nowMs p = true)
    (hno : ∀ p ∈ P, t.crossing nowMs p = false) (hR : ∀ p ∈ R, due nowMs p = false)
    (hexps : exps.nodes = (t.lower nowMs ++ P.filter fun p => !t.free p) ++ t.requeued nowMs P R)
    (hhead : t.requeued nowMs P R = n :: S) :
    t.Clean nowMs { t with exps := exps, keys := t.left nowMs P, expNext := n.1 } := by
  have hmemP : ∀ p ∈ P, p ∈ t.upper nowMs := fun p hp => hupper ▸ List.mem_append_left R hp
  have hmemR : ∀ p ∈ R, p ∈ t.upper nowMs := fun p hp => hupper ▸ List.mem_append_right P hp
  have hnode : ∀ p ∈ t.upper nowMs, p ∈ t.exps.nodes := fun p hp => (List.mem_filter.mp hp).1
  have hbase : ∀ p ∈ t.upper nowMs, base nowMs ≤ p.1 := fun p hp =>
    of_decide_eq_true (List.mem_filter.mp hp).2
  have hn : n ∈ t.requeued nowMs P R := hhead ▸ List.mem_cons_self
  obtain ⟨hlt, hlater⟩ := h.requeued_later (fun p hp => hnode p (hmemP p hp))
    (fun p hp => ⟨hnode p (hmemR p hp), hR p hp⟩) hn
  have hnbase : base nowMs ≤ n.1 := by
    rcases mem_requeued.mp hn with hmem | ⟨p, hp, hpost, rfl⟩
    · exact hbase n (hmemR n hmem)
    · exact (hbase p (hmemP p hp)).trans (h.le_expire_upper (hmemP p hp) (hmemP p hp) (hdue p hp)
        (hdue p hp) hpost (hno p hp))
  -- what is filed below the base is dated a turn of the clock later
  have hlower : ∀ m ∈ t.lower nowMs, date nowMs n.1 ≤ date nowMs m.1 := fun m hm =>
    date_le_wrap hnbase (of_decide_eq_true (List.mem_filter.mp hm).2)
  rw [hhead] at hexps
  refine clean_of_parts P (R ++ t.lower nowMs) ?_ hdue ?_ rfl rfl
    (fun i => Iff.rfl) ?_ (Or.inl ⟨n, by simp [hexps], hlater, rfl, ?_⟩)
  · intro m
    rw [mem_nodes, hupper, List.mem_append, List.mem_append]
    exact or_comm.trans or_assoc
  · intro m hm
    rcases List.mem_append.mp hm with hm | hm
    · exact hR m hm
    · rw [Bool.eq_false_iff, ne_eq, h.due_iff (List.mem_filter.mp hm).1]
      exact not_le.mpr (hlt.trans_le (hlower m hm))
  · intro m
    show m ∈ exps.nodes ↔ _
    rw [hexps, ← hhead, List.mem_append, List.mem_append, mem_requeued, List.mem_filter,
      List.mem_append, Bool.not_eq_true']
    constructor
    · rintro ((hm | hm) | hm | hm)
      · exact Or.inr (Or.inl (Or.inr hm))
      · exact Or.inl hm
      · exact Or.inr (Or.inl (Or.inl hm))
      · exact Or.inr (Or.inr hm)
    · rintro (hm | (hm | hm) | hm)
      · exact Or.inl (Or.inr hm)
      · exact Or.inr (Or.inl hm)
      · exact Or.inl (Or.inl hm)
      · exact Or.inr (Or.inr hm)
  · intro m hm hdueM
    rcases List.mem_append.mp (hexps ▸ hm) with hm | hm
    · rcases List.mem_append.mp hm with hm | hm
      · exact hlower m hm
      · rw [hdue m (List.mem_filter.mp hm).1] at hdueM
        cases hdueM
    · rcases List.mem_cons.mp hm with rfl | hm
      · exact le_rfl
      · exact date_le_date ((EbTree.key_le hexps).2 m hm) (Or.inl hnbase)

/-- It may go on to the lower part, and end there. -/
theorem clean_lower (h : t.Filed nowMs) (hupper : ∀ p ∈ t.upper nowMs, due nowMs p = true)
    (hpost : ∀ p ∈ t.upper nowMs, t.postponed nowMs p = false)
    (hlater : ∃ x ∈ t.lower nowMs, due nowMs x = false ∨ t.postponed nowMs x = true)
    (hexps : exps.nodes = t.lower nowMs ++ (t.upper nowMs).filter fun p => !t.free p)
    (hnodup : exps.items.Nodup) {fuel : ℕ} (hfuel : (t.lower nowMs).length + 1 ≤ fuel) :
    ∃ r, trashLoop nowMs fuel { t with exps := exps, keys := t.left nowMs (t.upper nowMs) }
      exps.nodes.head? true = some r ∧ t.Clean nowMs r := by
  have hnode : ∀ p ∈ t.lower nowMs, p ∈ t.exps.nodes := fun p hp => (List.mem_filter.mp hp).1
  have hbase : ∀ p ∈ t.lower nowMs, p.1 < base nowMs := fun p hp =>
    of_decide_eq_true (List.mem_filter.mp hp).2
  have hsplit := h.due_split (l := t.lower nowMs) List.filter_sublist (Or.inr hbase)
  obtain ⟨P, hP⟩ : ∃ P, P = (t.lower nowMs).filter (due nowMs) := ⟨_, rfl⟩
  obtain ⟨Q, hQ⟩ : ∃ Q, Q = (t.lower nowMs).filter (fun m => !due nowMs m) := ⟨_, rfl⟩
  obtain ⟨K, hK⟩ : ∃ K, K = (t.upper nowMs).filter (fun p => !t.free p) := ⟨_, rfl⟩
  rw [← hP, ← hQ] at hsplit
  have hmemP : ∀ p ∈ P, p ∈ t.lower nowMs ∧ due nowMs p = true := fun p hp =>
    List.mem_filter.mp (hP ▸ hp)
  have hmemQ : ∀ p ∈ Q, p ∈ t.lower nowMs ∧ due nowMs p = false := by
    intro p hp
    rwa [hQ, List.mem_filter, Bool.not_eq_true'] at hp
  have hmemK : ∀ p ∈ K, base nowMs ≤ p.1 ∧ p ∈ t.upper nowMs ∧ t.free p = false := by
    intro p hp
    rw [hK, List.mem_filter, Bool.not_eq_true'] at hp
    exact ⟨of_decide_eq_true (List.mem_filter.mp hp.1).2, hp⟩
  rw [← hK, hsplit, List.append_assoc] at hexps
  have hlen : (t.lower nowMs).length = P.length + Q.length := by rw [hsplit, List.length_append]
  obtain ⟨f, rfl⟩ : ∃ f, fuel = (f + 1) + P.length := ⟨fuel - 1 - P.length, by omega⟩
  obtain ⟨exps', hexps', -, hrun⟩ := trashLoop_due nowMs true (f + 1) P
    { t with exps := exps, keys := t.left nowMs (t.upper nowMs) } [] (Q ++ K) hexps hnodup
    (fun p hp => (hmemP p hp).2) (fun p hp hpost q hq =>
      (h.le_expire_lower (hmemP p hp).1 (hmemP q hq).1 (hmemP p hp).2 (hmemP q hq).2 hpost).1)
  rw [hexps, hrun]
  -- what comes next is not one of the referenced nodes of the upper part
  obtain ⟨y, hy, hybase⟩ : ∃ y ∈ t.requeued nowMs P (Q ++ K), y.1 < base nowMs := by
    obtain ⟨x, hx, hlater⟩ := hlater
    rcases List.mem_append.mp (hsplit ▸ hx) with hxP | hxQ
    · obtain ⟨-, hdue⟩ := hmemP x hxP
      rw [hdue] at hlater
      have hpost := hlater.resolve_left (by simp)
      exact ⟨_, mem_requeued.mpr (Or.inr ⟨x, hxP, hpost, rfl⟩),
        (h.le_expire_lower hx hx hdue hdue hpost).2⟩
    · exact ⟨x, mem_requeued.mpr (Or.inl (List.mem_append_left K hxQ)), hbase x hx⟩
  have hfound : ∀ m ∈ t.requeued nowMs P (Q ++ K), m.1 < base nowMs → m ∈ t.requeued nowMs P Q := by
    intro m hm hmbase
    rcases mem_requeued.mp hm with hmem | hmem
    · rcases List.mem_append.mp hmem with hmem | hmem
      · exact mem_requeued.mpr (Or.inl hmem)
      · exact absurd hmbase (not_lt.mpr (hmemK m hmem).1)
    · exact mem_requeued.mpr (Or.inr hmem)
  rcases hhead : t.requeued nowMs P (Q ++ K) with - | ⟨n, S⟩
  · rw [hhead] at hy
    cases hy
  · change exps'.nodes = ([] ++ P.filter fun p => !t.free p) ++ t.requeued nowMs P (Q ++ K)
      at hexps'
    have hexpsC := hexps'
    rw [hhead] at hexpsC
    have hnbase : n.1 < base nowMs := by
      rw [hhead] at hy
      rcases List.mem_cons.mp hy with rfl | hy
      · exact hybase
      · exact ((EbTree.key_le hexpsC).2 y hy).trans_lt hybase
    have hn : n ∈ t.requeued nowMs P Q := hfound n (hhead ▸ List.mem_cons_self) hnbase
    have hdue := (h.requeued_later (fun p hp => hnode p (hmemP p hp).1)
      (fun p hp => ⟨hnode p (hmemQ p hp).1, (hmemQ p hp).2⟩) hn).2
    change ∃ r, trashLoop nowMs (f + 1) _ (t.requeued nowMs P (Q ++ K)).head? true = _ ∧ _
    rw [hhead, List.head?_cons, trashLoop_later hdue]
    refine ⟨_, rfl, clean_of_parts (t.upper nowMs ++ P) Q ?_ ?_
      (fun m hm => (hmemQ m hm).2) rfl rfl ?_ ?_ (Or.inl ⟨n, by simp [hexpsC], hdue, rfl, ?_⟩)⟩
    · intro m
      rw [mem_nodes, hsplit, List.mem_append, List.mem_append]
      exact or_comm.trans or_assoc.symm
    · intro m hm
      rcases List.mem_append.mp hm with hm | hm
      · exact hupper m hm
      · exact (hmemP m hm).2
    · intro i
      show i ∈ left { t with exps := exps, keys := t.left nowMs (t.upper nowMs) } nowMs P ↔ _
      rw [mem_left, mem_left, mem_left]
      simp only [List.mem_append]
      refine ⟨fun hi => ⟨hi.1.1, fun p hp => hp.elim (hi.1.2 p) (hi.2 p)⟩, fun hi => ?_⟩
      exact ⟨⟨hi.1, fun p hp => hi.2 p (Or.inl hp)⟩, fun p hp => hi.2 p (Or.inr hp)⟩
    · intro m
      show m ∈ exps'.nodes ↔ _
      rw [hexps', List.nil_append, List.mem_append, mem_requeued, List.mem_append, List.mem_filter,
        Bool.not_eq_true', hK, List.mem_filter, Bool.not_eq_true', List.mem_append]
      constructor
      · rintro (⟨hm, hfree⟩ | (hm | ⟨hm, hfree⟩) | ⟨p, hp, hmore⟩)
        · exact Or.inl ⟨Or.inr hm, hfree⟩
        · exact Or.inr (Or.inl hm)
        · exact Or.inl ⟨Or.inl hm, hfree⟩
        · exact Or.inr (Or.inr ⟨p, List.mem_append_right _ hp, hmore⟩)
      · rintro (⟨hm | hm, hfree⟩ | hm | ⟨p, hp, hmore⟩)
        · exact Or.inr (Or.inl (Or.inr ⟨hm, hfree⟩))
        · exact Or.inl ⟨hm, hfree⟩
        · exact Or.inr (Or.inl (Or.inl hm))
        · rcases List.mem_append.mp hp with hp | hp
          · rw [hpost p hp] at hmore
            exact absurd hmore.1 Bool.false_ne_true
          · exact Or.inr (Or.inr ⟨p, hp, hmore⟩)
    · intro m hm hdueM
      rcases List.mem_append.mp (hexps' ▸ hm) with hm | hm
      · rw [(hmemP m (List.mem_filter.mp hm).1).2] at hdueM
        cases hdueM
      · have hmS := hm
        rw [hhead] at hmS
        rcases List.mem_cons.mp hmS with rfl | hmS
        · exact le_rfl
        · refine date_le_date ((EbTree.key_le hexpsC).2 m hmS) (Or.inr ?_)
          rcases mem_requeued.mp hm with hmem | ⟨p, hp, hpostP, rfl⟩
          · rcases List.mem_append.mp hmem with hmem | hmem
            · exact hbase m (hmemQ m hmem).1
            · rw [hupper m (hmemK m hmem).2.1] at hdueM
              cases hdueM
          · obtain ⟨hp, hdueP⟩ := hmemP p hp
            exact (h.le_expire_lower hp hp hdueP hdueP hpostP).2

theorem clean_all (hdue : ∀ p ∈ t.exps.nodes, due nowMs p = true)
    (hpost : ∀ p ∈ t.exps.nodes, t.postponed nowMs p = false) {keys : List ι}
    (hexps : ∀ n, n ∈ exps.nodes ↔ n ∈ t.exps.nodes ∧ t.free n = false)
    (hkeys : ∀ i, i ∈ keys ↔ i ∈ t.left nowMs t.exps.nodes) :
    t.Clean nowMs { t with exps := exps, keys := keys, expNext := 0 } := by
  refine clean_of_parts t.exps.nodes [] (by simp) hdue (by simp) rfl rfl hkeys ?_
    (Or.inr ⟨rfl, fun m hm => hdue m ((hexps m).mp hm).1⟩)
  intro n
  show n ∈ exps.nodes ↔ _
  rw [hexps]
  refine ⟨fun hn => Or.inl hn, ?_⟩
  rintro (hn | hn | ⟨m, hm, hmore, -⟩)
  · exact hn
  · cases hn
  · rw [hpost m hm] at hmore
    cases hmore

/-- The walk may also come to the end of the tree. -/
theorem clean_end (hdue : ∀ p ∈ t.exps.nodes, due nowMs p = true)
    (hpost : ∀ p ∈ t.exps.nodes, t.postponed nowMs p = false)
    (hexps : exps.nodes = t.lower nowMs ++ (t.upper nowMs).filter fun p => !t.free p)
    (hnodup : exps.items.Nodup) {fuel : ℕ} (hfuel : t.exps.nodes.length + 1 ≤ fuel) :
    ∃ r, trashLoop nowMs fuel { t with exps := exps, keys := t.left nowMs (t.upper nowMs) }
      exps.nodes.head? true = some r ∧ t.Clean nowMs r := by
  obtain ⟨f, rfl⟩ : ∃ f, fuel = (f + 1) + exps.nodes.length := by
    refine ⟨fuel - 1 - exps.nodes.length, ?_⟩
    have hle : exps.nodes.length ≤ t.exps.nodes.length := by
      rw [hexps, nodes_eq t nowMs, List.length_append, List.length_append]
      exact Nat.add_le_add_left (List.length_filter_le _ _) _
    omega
  have hmem : ∀ p ∈ exps.nodes, p ∈ t.exps.nodes := by
    intro p hp
    rw [hexps] at hp
    rw [mem_nodes]
    exact (List.mem_append.mp hp).imp_right fun h => (List.mem_filter.mp h).1
  have hnone : t.requeued nowMs exps.nodes [] = [] := by
    apply List.eq_nil_iff_forall_not_mem.mpr
    intro n hn
    rcases mem_requeued.mp hn with hn | ⟨p, hp, hmore, -⟩
    · cases hn
    · rw [hpost p (hmem p hp)] at hmore
      cases hmore
  obtain ⟨exps', hexps', -, hrun⟩ := trashLoop_due nowMs true (f + 1) exps.nodes
    { t with exps := exps, keys := t.left nowMs (t.upper nowMs) } [] [] (by simp) hnodup
    (fun p hp => hdue p (hmem p hp)) (fun p hp hmore => by
      have hmore : t.postponed nowMs p = true := hmore
      rw [hpost p (hmem p hp)] at hmore
      cases hmore)
  change exps'.nodes = ([] ++ exps.nodes.filter fun p => !t.free p) ++ t.requeued nowMs exps.nodes []
    at hexps'
  change trashLoop nowMs (f + 1 + exps.nodes.length) _ (exps.nodes ++ []).head? true
    = trashLoop nowMs (f + 1) _ (t.requeued nowMs exps.nodes []).head? true at hrun
  rw [List.append_nil, hnone, List.head?_nil, trashLoop_end] at hrun
  refine ⟨_, hrun, clean_all hdue hpost (fun n => ?_) (fun i => ?_)⟩
  · rw [hexps', hnone, List.append_nil, List.nil_append, List.mem_filter, Bool.not_eq_true', hexps,
      mem_nodes, List.mem_append, List.mem_filter, Bool.not_eq_true']
    exact and_congr_left fun hfree => or_congr_right (and_iff_left hfree)
  · rw [mem_left, mem_left, mem_left]
    refine ⟨fun hi => ⟨hi.1.1, fun p hp hexp => ?_⟩,
      fun hi => ⟨⟨hi.1, fun p hp => ?_⟩, fun p hp => ?_⟩⟩
    · rcases mem_nodes.mp hp with hp' | hp'
      · exact hi.2 p (hexps ▸ List.mem_append_left _ hp') hexp
      · exact hi.1.2 p hp' hexp
    · exact hi.2 p (mem_nodes.mpr (Or.inr hp))
    · exact hi.2 p (hmem p hp)

end Phases

/-- Without a crossing, the walk does what it is for. -/
theorem clean_of_no_crossing {t : StkTable ι} {nowMs : UInt32} (h : t.Filed nowMs)
    (hno : ∀ n ∈ t.upper nowMs, t.crossing nowMs n = false) {fuel : ℕ}
    (hfuel : 2 * t.exps.nodes.length + 3 ≤ fuel) :
    ∃ r, t.trashExpired nowMs fuel = some r ∧ t.Clean nowMs r := by
  have hsplit := h.due_split (l := t.upper nowMs) List.filter_sublist
    (Or.inl fun m hm => of_decide_eq_true (List.mem_filter.mp hm).2)
  obtain ⟨P, hP⟩ : ∃ P, P = (t.upper nowMs).filter (due nowMs) := ⟨_, rfl⟩
  obtain ⟨R, hR⟩ : ∃ R, R = (t.upper nowMs).filter (fun m => !due nowMs m) := ⟨_, rfl⟩
  rw [← hP, ← hR] at hsplit
  have hmemP : ∀ p ∈ P, p ∈ t.upper nowMs ∧ due nowMs p = true := fun p hp =>
    List.mem_filter.mp (hP ▸ hp)
  have hmemR : ∀ p ∈ R, p ∈ t.upper nowMs ∧ due nowMs p = false := by
    intro p hp
    rwa [hR, List.mem_filter, Bool.not_eq_true'] at hp
  have hnode : ∀ p ∈ t.upper nowMs, p ∈ t.exps.nodes := fun p hp => (List.mem_filter.mp hp).1
  have hlen : t.exps.nodes.length = (t.lower nowMs).length + (P.length + R.length) := by
    rw [nodes_eq t nowMs, List.length_append, hsplit, List.length_append]
  obtain ⟨f, rfl⟩ : ∃ f, fuel = (f + 2) + P.length := ⟨fuel - 2 - P.length, by omega⟩
  obtain ⟨exps, hexps, hnodup, hrun⟩ := upper_walk h hsplit (fun p hp => (hmemP p hp).2)
    (fun p hp => hno p (hmemP p hp).1) (f + 2)
  rw [hrun]
  rcases hhead : t.requeued nowMs P R with - | ⟨n, S⟩
  · -- nothing in the upper part is for later
    obtain ⟨rfl, hpost⟩ := requeued_nil hhead
    rw [List.append_nil] at hsplit
    subst hsplit
    rw [hhead, List.append_nil] at hexps
    rw [List.head?_nil]
    by_cases hempty : exps.nodes = []
    · rw [trashLoop_empty hempty]
      rw [hempty, eq_comm, List.append_eq_nil_iff] at hexps
      have hnodes : ∀ n, n ∈ t.exps.nodes ↔ n ∈ t.upper nowMs := by
        intro n
        rw [mem_nodes, hexps.1]
        simp
      refine ⟨_, rfl, clean_all (fun p hp => (hmemP p ((hnodes p).mp hp)).2)
        (fun p hp => hpost p ((hnodes p).mp hp)) (fun n => ?_) (fun i => ?_)⟩
      · rw [hempty, hnodes]
        refine iff_of_false List.not_mem_nil fun hn => ?_
        have hkept : n ∈ (t.upper nowMs).filter fun p => !t.free p := by
          rw [List.mem_filter, Bool.not_eq_true']
          exact hn
        rw [hexps.2] at hkept
        cases hkept
      · rw [mem_left, mem_left]
        simp only [hnodes]
    · rw [trashLoop_again hempty]
      by_cases hmore : ∃ x ∈ t.lower nowMs, due nowMs x = false ∨ t.postponed nowMs x = true
      · exact clean_lower h (fun p hp => (hmemP p hp).2) hpost hmore hexps hnodup (by omega)
      · simp only [not_exists, not_and, not_or, Bool.not_eq_false, Bool.not_eq_true] at hmore
        refine clean_end (fun p hp => ?_) (fun p hp => ?_) hexps hnodup (by omega)
        · rcases mem_nodes.mp hp with hp | hp
          · exact (hmore p hp).1
          · exact (hmemP p hp).2
        · rcases mem_nodes.mp hp with hp | hp
          · exact (hmore p hp).2
          · exact hpost p hp
  · rw [List.head?_cons, trashLoop_later (h.requeued_later (fun p hp => hnode p (hmemP p hp).1)
      (fun p hp => ⟨hnode p (hmemR p hp).1, (hmemR p hp).2⟩) (hhead ▸ List.mem_cons_self)).2]
    exact ⟨_, rfl, clean_upper h hsplit (fun p hp => (hmemP p hp).2)
      (fun p hp => hno p (hmemP p hp).1) (fun p hp => (hmemR p hp).2) hexps hhead⟩

/-! ### The walk with a crossing -/

section Crossing

variable {t : StkTable ι} {nowMs : UInt32} {P Q : List (UInt32 × ι)} {c : UInt32 × ι}

omit [DecidableEq ι] in
theorem crossing_iff {n : UInt32 × ι} : t.crossing nowMs n = true ↔
    due nowMs n = true ∧ t.postponed nowMs n = true ∧ t.expire n.2 < n.1 := by
  rw [crossing, Bool.and_eq_true, Bool.and_eq_true, decide_eq_true_iff, and_assoc]

/-- The walk ends at the first crossing. -/
theorem crossing_walk (h : t.Filed nowMs) (hupper : t.upper nowMs = P ++ c :: Q)
    (hno : ∀ p ∈ P, t.crossing nowMs p = false) (hc : t.crossing nowMs c = true) (fuel : ℕ)
    (hfuel : P.length + 2 ≤ fuel) :
    ∃ exps : EbTree UInt32 ι,
      (∀ n, n ∈ exps.nodes ↔ n = (t.expire c.2, c.2) ∨ n ∈ t.lower nowMs ∨ n ∈ Q ∨
        (n ∈ P ∧ t.free n = false) ∨
        ∃ p ∈ P, t.postponed nowMs p = true ∧ n = (t.expire p.2, p.2)) ∧
      t.trashExpired nowMs fuel
        = some { t with exps := exps, keys := t.left nowMs P, expNext := t.expire c.2 } := by
  obtain ⟨hdueC, hpostC, hless⟩ := crossing_iff.mp hc
  have hmemP : ∀ p ∈ P, p ∈ t.upper nowMs := fun p hp => hupper ▸ List.mem_append_left _ hp
  have hmemC : c ∈ t.upper nowMs := hupper ▸ List.mem_append_right P List.mem_cons_self
  have hnode : ∀ p ∈ t.upper nowMs, p ∈ t.exps.nodes := fun p hp => (List.mem_filter.mp hp).1
  have hbase : ∀ p ∈ t.upper nowMs, base nowMs ≤ p.1 := fun p hp =>
    of_decide_eq_true (List.mem_filter.mp hp).2
  have hdue : ∀ p ∈ P, due nowMs p = true := by
    intro p hp
    have hsorted : (t.upper nowMs).Pairwise fun a b => a.1 ≤ b.1 :=
      t.exps.sorted.sublist List.filter_sublist
    rw [hupper, List.pairwise_append] at hsorted
    have hle := hsorted.2.2 p hp c List.mem_cons_self
    rw [h.due_iff (hnode c hmemC)] at hdueC
    rw [h.due_iff (hnode p (hmemP p hp))]
    exact (date_le_date hle (Or.inl (hbase p (hmemP p hp)))).trans hdueC
  obtain ⟨f, rfl⟩ : ∃ f, fuel = (f + 1 + 1) + P.length := ⟨fuel - 2 - P.length, by omega⟩
  obtain ⟨exps, hexps, hnodup, hrun⟩ := upper_walk h hupper hdue hno (f + 1 + 1)
  rw [requeued_cons (fun p hp hpost => h.le_expire_upper (hmemP p hp) hmemC (hdue p hp) hdueC hpost
    (hno p hp))] at hexps hrun
  have hnext := EbTree.next_eq hexps hnodup
  have hdel := EbTree.nodes_delete hexps hnodup
  obtain ⟨href, -, -, hlater⟩ := h.postponed_date (hnode c hmemC) hpostC
  have hpost := hpostC
  rw [postponed, Bool.and_eq_true, Bool.and_eq_true, Bool.not_eq_true'] at hpost
  obtain ⟨⟨-, hexp⟩, hset⟩ := hpost
  -- the entry is linked in front of the cursor, which is set back to it
  have hback : ∀ n ∈ (t.requeued nowMs P Q).head?, t.expire c.2 < n.1 := fun n hn =>
    hless.trans_le ((EbTree.key_le hexps).2 n (List.mem_of_mem_head? hn))
  refine ⟨(exps.delete c.2).insert (t.expire c.2) c.2, fun n => ?_, ?_⟩
  · rw [EbTree.mem_nodes_insert, hdel, List.mem_append, List.mem_append, mem_requeued,
      List.mem_filter, Bool.not_eq_true', or_assoc, or_left_comm (a := n ∈ P ∧ t.free n = false)]
  · rw [hrun, List.head?_cons]
    show trashLoop nowMs (f + 1 + 1) _ (some (c.1, c.2)) false = _
    rw [trashLoop, if_neg (by simpa [due] using hdueC)]
    simp only
    rw [if_neg (by simpa using href), if_pos (by simp [hexp]), if_neg (by simp [hset]), hnext,
      if_pos hback, trashLoop_later hlater]
    rfl

omit [DecidableEq ι] in
/-- That is as expected when the first crossing is the earliest of what is left. -/
theorem crossing_swept_iff (h : t.Filed nowMs) (hupper : t.upper nowMs = P ++ c :: Q)
    (hc : t.crossing nowMs c = true) (hexpire : r.expire = t.expire) (hrefCnt : r.refCnt = t.refCnt)
    (hnext : r.expNext = t.expire c.2)
    (hkeys : ∀ i, i ∈ r.keys ↔ i ∈ t.keys ∧ ∀ p ∈ P, t.expired nowMs p = true → p.2 ≠ i)
    (hexps : ∀ n, n ∈ r.exps.nodes ↔ n = (t.expire c.2, c.2) ∨ n ∈ t.lower nowMs ∨ n ∈ Q ∨
      (n ∈ P ∧ t.free n = false) ∨
      ∃ p ∈ P, t.postponed nowMs p = true ∧ n = (t.expire p.2, p.2)) :
    r.Swept nowMs ↔ ∀ n ∈ t.exps.nodes, n ≠ c → t.refCnt n.2 = 0 → t.expire n.2 ≠ 0 →
      date nowMs (t.expire c.2) ≤ date nowMs (t.expire n.2) ∨
        (n ∈ P ∧ tickIsExpired (t.expire n.2) nowMs = true) := by
  obtain ⟨-, hpostC, -⟩ := crossing_iff.mp hc
  have hnode : ∀ n, n ∈ t.exps.nodes ↔ n ∈ t.lower nowMs ∨ n ∈ P ∨ n = c ∨ n ∈ Q := by
    intro n
    rw [mem_nodes, hupper, List.mem_append, List.mem_cons]
  have hmemC : c ∈ t.exps.nodes := (hnode c).mpr (Or.inr (Or.inr (Or.inl rfl)))
  obtain ⟨hrefC, hsetC, hltC, -⟩ := h.postponed_date hmemC hpostC
  have hnodup : (t.lower nowMs ++ (P ++ c :: Q)).Nodup := by
    rw [← hupper, ← nodes_eq]
    exact List.Nodup.of_map _ h.once
  rw [List.nodup_append, List.nodup_append, List.nodup_cons] at hnodup
  obtain ⟨-, ⟨-, ⟨hCQ, -⟩, hPQ⟩, hlow⟩ := hnodup
  constructor
  · -- what has been seen has been treated, the rest is still in the tree
    rintro ⟨-, hnextLe⟩ n hn hne href hset
    have hleft : ∀ m ∈ r.exps.nodes, m.2 = n.2 →
        date nowMs (t.expire c.2) ≤ date nowMs (t.expire n.2) := by
      intro m hm hmn
      have hle := (hnextLe (List.ne_nil_of_mem hm)).2 m hm (by rw [hrefCnt, hmn]; exact href)
        (by rw [hexpire, hmn]; exact hset)
      rwa [hexpire, hmn, hnext] at hle
    rcases (hnode n).mp hn with hmem | hmem | rfl | hmem
    · exact Or.inl (hleft n ((hexps n).mpr (Or.inr (Or.inl hmem))) rfl)
    · rcases hexp : tickIsExpired (t.expire n.2) nowMs
      · have hpost : t.postponed nowMs n = true := by
          simp [postponed, free, href, hexp, tickIsset, hset]
        exact Or.inl (hleft _ ((hexps _).mpr
          (Or.inr (Or.inr (Or.inr (Or.inr ⟨n, hmem, hpost, rfl⟩))))) rfl)
      · exact Or.inr ⟨hmem, rfl⟩
    · exact absurd rfl hne
    · exact Or.inl (hleft n ((hexps n).mpr (Or.inr (Or.inr (Or.inl hmem)))) rfl)
  · intro hall
    constructor
    · intro i hi
      rw [hexpire, hrefCnt]
      obtain ⟨hkey, hleft⟩ := (hkeys i).mp hi
      by_contra! hbad
      obtain ⟨href, hexp⟩ := hbad
      rw [ne_eq, Bool.not_eq_false] at hexp
      have hset : t.expire i ≠ 0 := by
        intro hzero
        rw [tickIsExpired, hzero] at hexp
        exact absurd hexp (by simp [tickIsset])
      obtain ⟨key, hmem⟩ := h.stored i hkey hset
      have hdate := (h.isExpired_iff hmem hset).mp hexp
      have hne : (key, i) ≠ c := by
        rintro rfl
        omega
      rcases hall _ hmem hne href hset with hle | ⟨hmemP, -⟩
      · omega
      · exact hleft _ hmemP (by simp [expired, free, href, hexp]) rfl
    · intro _
      rw [hnext]
      refine ⟨hsetC, fun n hn href hset => ?_⟩
      rw [hrefCnt] at href
      rw [hexpire] at hset ⊢
      rcases (hexps n).mp hn with rfl | hmem | hmem | ⟨-, hfree⟩ | ⟨p, hp, hpost, rfl⟩
      · exact le_rfl
      · refine (hall n ((hnode n).mpr (Or.inl hmem)) ?_ href hset).resolve_right fun hP => ?_
        · exact hlow n hmem c (List.mem_append_right P List.mem_cons_self)
        · exact hlow n hmem n (List.mem_append_left _ hP.1) rfl
      · refine (hall n ((hnode n).mpr (Or.inr (Or.inr (Or.inr hmem)))) ?_ href hset).resolve_right
          fun hP => ?_
        · rintro rfl
          exact hCQ hmem
        · exact hPQ n hP.1 n (List.mem_cons_of_mem c hmem) rfl
      · exact absurd hfree (by simp [free, href])
      · have hmem : p ∈ t.exps.nodes := (hnode p).mpr (Or.inr (Or.inl hp))
        obtain ⟨-, -, hlt, -⟩ := h.postponed_date hmem hpost
        refine (hall p hmem ?_ href hset).resolve_right fun hP => ?_
        · exact hPQ p hp c List.mem_cons_self
        · have hle := (h.isExpired_iff hmem hset).mp hP.2
          omega

end Crossing

/-- **When expired entries are removed and the rest is remembered.**  Of a table whose
dates are all less than half a turn from the current one, with keys that may be older,
the walk leaves what is expected exactly when it is `Sweepable`. -/
theorem trashExpired_swept_iff (t : StkTable ι) (nowMs : UInt32) (h : t.Filed nowMs) (fuel : ℕ)
    (hfuel : 2 * t.exps.nodes.length + 3 ≤ fuel) :
    ∃ r, t.trashExpired nowMs fuel = some r ∧ (r.Swept nowMs ↔ t.Sweepable nowMs) := by
  have hlower : (t.lower nowMs).find? (t.crossing nowMs) = none := by
    apply List.find?_eq_none.mpr
    intro n hn
    rw [h.crossing_lower hn]
    exact Bool.false_ne_true
  have hfind : (t.visitOrder nowMs).find? (t.crossing nowMs)
      = (t.upper nowMs).find? (t.crossing nowMs) := by
    rw [visitOrder, List.find?_append, hlower, Option.or_none]
  rcases hc : (t.upper nowMs).find? (t.crossing nowMs) with - | c
  · have hno : ∀ n ∈ t.upper nowMs, t.crossing nowMs n = false := fun n hn => by
      simpa using List.find?_eq_none.mp hc n hn
    obtain ⟨r, hrun, hclean⟩ := clean_of_no_crossing h hno hfuel
    refine ⟨r, hrun, (hclean.swept_iff h).trans ?_⟩
    rw [Sweepable, hfind, hc]
  · obtain ⟨hcross, P, Q, hupper, hno⟩ := List.find?_eq_some_iff_append.mp hc
    have hlen : P.length + 1 ≤ t.exps.nodes.length := by
      rw [nodes_eq t nowMs, hupper, List.length_append, List.length_append, List.length_cons]
      omega
    obtain ⟨exps, hexps, hrun⟩ := crossing_walk h hupper (fun p hp => by simpa using hno p hp)
      hcross fuel (by omega)
    refine ⟨_, hrun, ?_⟩
    have hbefore : (t.visitOrder nowMs).takeWhile (fun m => !t.crossing nowMs m) = P := by
      rw [visitOrder, hupper, List.append_assoc, List.takeWhile_append_of_pos hno,
        List.cons_append, List.takeWhile_cons_of_neg (by simp [hcross]), List.append_nil]
    rw [Sweepable, hfind, hc, hbefore]
    exact crossing_swept_iff h hupper hcross rfl rfl rfl (fun i => mem_left) hexps

/-! ### Tables that are not swept -/

/-- Entry 0 is found 10 ms late and has been postponed over the wrap of the clock, by one
second; behind it are entry 2, which has expired, and entry 1, which expires in half a
second. -/
def sampleCrossing : StkTable ℕ where
  keys := [0, 1, 2]
  exps := ((EbTree.empty.insert 4294967276 0).insert 500 1).insert 4294967281 2
  expNext := 4294967276
  expire := fun i => if i = 0 then 1000 else if i = 1 then 500 else 4294967284
  refCnt := fun _ => 0

/-- Entry 0 has expired and is referenced. -/
def sampleReferenced : StkTable ℕ where
  keys := [0]
  exps := EbTree.empty.insert 4294967276 0
  expNext := 4294967276
  expire := fun _ => 4294967276
  refCnt := fun _ => 1

theorem filed_sampleCrossing : sampleCrossing.Filed 4294967286 where
  once := by decide
  stored := by
    intro i hi _
    have hi : i = 0 ∨ i = 1 ∨ i = 2 := by simpa [sampleCrossing] using hi
    rcases hi with rfl | rfl | rfl
    · exact ⟨4294967276, by decide⟩
    · exact ⟨500, by decide⟩
    · exact ⟨4294967281, by decide⟩
  isset := by decide
  recent := by decide
  older := by decide

theorem filed_sampleReferenced : sampleReferenced.Filed 4294967286 where
  once := by decide
  stored := by
    intro i hi _
    obtain rfl : i = 0 := by simpa [sampleReferenced] using hi
    exact ⟨4294967276, by decide⟩
  isset := by decide
  recent := by decide
  older := by decide

/-- All dates are less than `2 ^ 30` ms from the current one. -/
def Near (t : StkTable ℕ) (nowMs : UInt32) : Prop :=
  ∀ n ∈ t.exps.nodes, (nowMs.toNat : ℤ) - 2 ^ 30 < date nowMs n.1 ∧
    date nowMs n.1 < nowMs.toNat + 2 ^ 30 ∧
    (nowMs.toNat : ℤ) - 2 ^ 30 < date nowMs (t.expire n.2) ∧
    date nowMs (t.expire n.2) < nowMs.toNat + 2 ^ 30

/-- Expired entries may stay, and the next date may be unset although the tree has
entries. -/
theorem not_trashExpired_swept :
    (¬ ∀ (t : StkTable ℕ) (nowMs : UInt32), t.Filed nowMs → t.Near nowMs →
      ∀ fuel r, t.trashExpired nowMs fuel = some r →
        ∀ i ∈ r.keys, r.refCnt i ≠ 0 ∨ tickIsExpired (r.expire i) nowMs = false) ∧
    ¬ ∀ (t : StkTable ℕ) (nowMs : UInt32), t.Filed nowMs → t.Near nowMs →
      ∀ fuel r, t.trashExpired nowMs fuel = some r → r.exps.nodes ≠ [] → r.expNext ≠ 0 := by
  constructor
  · intro hall
    have hrun : (sampleCrossing.trashExpired 4294967286 9).map
        (fun r => (r.keys, r.refCnt 2, tickIsExpired (r.expire 2) 4294967286))
          = some ([0, 1, 2], 0, true) := by decide
    rcases hr : sampleCrossing.trashExpired 4294967286 9 with - | r
    · rw [hr] at hrun
      cases hrun
    · rw [hr, Option.map_some, Option.some.injEq, Prod.mk.injEq, Prod.mk.injEq] at hrun
      obtain ⟨hkeys, href, hexp⟩ := hrun
      have hbad := hall sampleCrossing 4294967286 filed_sampleCrossing (by unfold Near; decide) 9 r
        hr 2 (by rw [hkeys]; decide)
      rw [hexp] at hbad
      exact hbad.elim (fun hne => hne href) (by simp)
  · intro hall
    have hrun : (sampleReferenced.trashExpired 4294967286 9).map
        (fun r => (r.exps.nodes, r.expNext)) = some ([(4294967276, 0)], 0) := by decide
    rcases hr : sampleReferenced.trashExpired 4294967286 9 with - | r
    · rw [hr] at hrun
      cases hrun
    · rw [hr, Option.map_some, Option.some.injEq, Prod.mk.injEq] at hrun
      obtain ⟨hnodes, hnext⟩ := hrun
      exact hall sampleReferenced 4294967286 filed_sampleReferenced (by unfold Near; decide) 9 r hr
        (by rw [hnodes]; exact List.cons_ne_nil _ _) hnext

/-- The walk that ends at the crossing. -/
theorem trashExpired_swept_iff_crossing :
    ∃ r, sampleCrossing.trashExpired 4294967286 9 = some r ∧
      (r.Swept 4294967286 ↔ sampleCrossing.Sweepable 4294967286) :=
  trashExpired_swept_iff sampleCrossing 4294967286 filed_sampleCrossing 9 (by decide)

end StkTable

end SmartHAProxy
