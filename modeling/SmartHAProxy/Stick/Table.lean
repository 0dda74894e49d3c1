/-
The expiration of the entries of a stick table (src/stick_table.c).

An entry is linked into the tree `exps` under the date it had when it was linked; its
date may be postponed while it is linked, and the tree is corrected when the entry is
found there.  `stktable_trash_expired` goes through the tree with a cursor `eb`, from
half a turn before the current date to the end of the tree and then once from its
start, removes what has expired, moves what has been postponed, and leaves what is
referenced where it is.

The walk is followed on the list of the nodes: `trashLoop_due` says what a piece of the
tree becomes whose nodes are all due and of which none is postponed over the wrap of
the clock.
-/
import SmartHAProxy.Lib.EbWalk
import SmartHAProxy.Sched.Timers

namespace SmartHAProxy

/-! ### The table -/

/-- What `struct stktable` and its entries say about expiration: the entries that are
stored (`keys`), the tree, the table's next date, and the date and the reference count of
each entry. -/
structure StkTable (ι : Type) where
  keys : List ι
  exps : EbTree UInt32 ι
  expNext : UInt32
  expire : ι → UInt32
  refCnt : ι → ℕ

variable {ι : Type} [DecidableEq ι]

namespace StkTable

/-- `eb32_delete(&ts->exp)`. -/
def deleteExp (t : StkTable ι) (ts : ι) : StkTable ι := { t with exps := t.exps.delete ts }

/-- The entry is linked again, under its date. -/
def requeue (t : StkTable ι) (ts : ι) : StkTable ι :=
  { t with exps := (t.exps.delete ts).insert (t.expire ts) ts }

/-- The entry is removed from the table and freed. -/
def trash (t : StkTable ι) (ts : ι) : StkTable ι :=
  { t.deleteExp ts with keys := t.keys.filter (· ≠ ts) }

/-- The loop of `stktable_trash_expired`. -/
def trashLoop (nowMs : UInt32) : ℕ → StkTable ι → Option (UInt32 × ι) → Bool → Option (StkTable ι)
  | 0, _, _, _ => none
  | fuel + 1, t, none, looped =>
    if looped then some { t with expNext := 0 }
    else if t.exps.firstNode = none then some { t with expNext := 0 }
    else trashLoop nowMs fuel t t.exps.firstNode true
  | fuel + 1, t, some (key, ts), looped =>
    if tickIsLt nowMs key then some { t with expNext := key }
    else
      let eb := t.exps.next ts
      if t.refCnt ts ≠ 0 then trashLoop nowMs fuel t eb looped
      else if !tickIsExpired (t.expire ts) nowMs then
        if !tickIsset (t.expire ts) then trashLoop nowMs fuel (t.deleteExp ts) eb looped
        else
          let eb := if ∀ n ∈ eb, t.expire ts < n.1 then some (t.expire ts, ts) else eb
          trashLoop nowMs fuel (t.requeue ts) eb looped
      else trashLoop nowMs fuel (t.trash ts) eb looped

/-- `stktable_trash_expired`. -/
def trashExpired (nowMs : UInt32) (fuel : ℕ) (t : StkTable ι) : Option (StkTable ι) :=
  trashLoop nowMs fuel t (t.exps.lookupGe (nowMs - UInt32.ofNat (2 ^ 31))) false

/-! ### What becomes of a node -/

def due (nowMs : UInt32) (n : UInt32 × ι) : Bool := !tickIsLt nowMs n.1

/-- The entry of the node may be removed or moved. -/
def free (t : StkTable ι) (n : UInt32 × ι) : Bool := t.refCnt n.2 = 0

def expired (t : StkTable ι) (nowMs : UInt32) (n : UInt32 × ι) : Bool :=
  t.free n && tickIsExpired (t.expire n.2) nowMs

/-- It has been postponed beyond the current date. -/
def postponed (t : StkTable ι) (nowMs : UInt32) (n : UInt32 × ι) : Bool :=
  t.free n && !tickIsExpired (t.expire n.2) nowMs && tickIsset (t.expire n.2)

/-- What the nodes behind `P` become when the entries of `P` are treated. -/
def requeued (t : StkTable ι) (nowMs : UInt32) (P R : List (UInt32 × ι)) : List (UInt32 × ι) :=
  P.foldl (fun R p => if t.postponed nowMs p then EbTree.link R (t.expire p.2, p.2) else R) R

/-- The entries that are left when those of `P` are treated. -/
def left (t : StkTable ι) (nowMs : UInt32) (P : List (UInt32 × ι)) : List ι :=
  t.keys.filter fun i => !P.any fun p => t.expired nowMs p && p.2 = i

omit [DecidableEq ι] in
theorem mem_requeued {t : StkTable ι} {nowMs : UInt32} {P R : List (UInt32 × ι)}
    {n : UInt32 × ι} : n ∈ t.requeued nowMs P R ↔
      n ∈ R ∨ ∃ p ∈ P, t.postponed nowMs p = true ∧ n = (t.expire p.2, p.2) := by
  induction P generalizing R with
  | nil => simp [requeued]
  | cons p P ih =>
    show n ∈ t.requeued nowMs P (if t.postponed nowMs p then EbTree.link R (t.expire p.2, p.2) else R) ↔ _
    rw [ih]
    by_cases hp : t.postponed nowMs p = true
    · rw [if_pos hp, EbTree.mem_link]
      simp only [List.mem_cons, exists_eq_or_imp, hp, true_and]
      tauto
    · rw [if_neg hp]
      simp only [List.mem_cons, exists_eq_or_imp, hp]
      simp

omit [DecidableEq ι] in
theorem requeued_cons {t : StkTable ι} {nowMs : UInt32} {P : List (UInt32 × ι)} {c : UInt32 × ι}
    (h : ∀ p ∈ P, t.postponed nowMs p = true → c.1 ≤ t.expire p.2) (Q : List (UInt32 × ι)) :
    t.requeued nowMs P (c :: Q) = c :: t.requeued nowMs P Q := by
  induction P generalizing Q with
  | nil => rfl
  | cons p P ih =>
    have ih := ih fun q hq => h q (List.mem_cons_of_mem p hq)
    show t.requeued nowMs P (if _ then _ else _) = c :: t.requeued nowMs P (if _ then _ else _)
    by_cases hp : t.postponed nowMs p = true
    · have hc : ∀ x ∈ [c], x.1 ≤ t.expire p.2 := by
        intro x hx
        rw [List.mem_singleton.mp hx]
        exact h p List.mem_cons_self hp
      rw [if_pos hp, if_pos hp, ← ih]
      congr 1
      exact EbTree.link_append (n := (t.expire p.2, p.2)) hc Q
    · rw [if_neg hp, if_neg hp, ih]

omit [DecidableEq ι] in
theorem fate (t : StkTable ι) (nowMs : UInt32) (n : UInt32 × ι) :
    (t.refCnt n.2 ≠ 0 ∧ t.free n = false ∧ t.expired nowMs n = false ∧
      t.postponed nowMs n = false) ∨
    (t.refCnt n.2 = 0 ∧ t.free n = true ∧ tickIsExpired (t.expire n.2) nowMs = true ∧
      t.expired nowMs n = true ∧ t.postponed nowMs n = false) ∨
    (t.refCnt n.2 = 0 ∧ t.free n = true ∧ tickIsExpired (t.expire n.2) nowMs = false ∧
      t.expired nowMs n = false ∧ tickIsset (t.expire n.2) = t.postponed nowMs n) := by
  by_cases hr : t.refCnt n.2 = 0
  · rcases he : tickIsExpired (t.expire n.2) nowMs
    · exact Or.inr (Or.inr ⟨hr, by simp [free, hr], rfl, by simp [expired, he],
        by simp [postponed, free, hr, he]⟩)
    · exact Or.inr (Or.inl ⟨hr, by simp [free, hr], rfl, by simp [expired, free, hr, he],
        by simp [postponed, he]⟩)
  · exact Or.inl ⟨hr, by simp [free, hr], by simp [expired, free, hr], by simp [postponed, free, hr]⟩

/-! ### The walk over due nodes -/

theorem left_cons (t : StkTable ι) (n : UInt32 × ι) (nowMs : UInt32) (P : List (UInt32 × ι)) :
    t.left nowMs (n :: P)
      = (if t.expired nowMs n then t.trash n.2 else t).left nowMs P := by
  rcases h : t.expired nowMs n
  · simp [left, h]
  · rw [if_pos rfl, left, left]
    show t.keys.filter _ = (t.keys.filter _).filter _
    rw [List.filter_filter]
    apply List.filter_congr
    intro i _
    rw [List.any_cons, h]
    simp [trash, deleteExp, expired, free, Bool.and_comm, eq_comm]

/-- **A piece of the tree whose nodes are all due is gone through**, when none of its
entries is postponed to a key before one of the piece: the referenced ones stay, the
expired ones are removed, the postponed ones are linked behind the piece. -/
theorem trashLoop_due (nowMs : UInt32) (looped : Bool) (fuel : ℕ) (P : List (UInt32 × ι)) :
    ∀ (t : StkTable ι) (A R : List (UInt32 × ι)), t.exps.nodes = A ++ (P ++ R) →
    t.exps.items.Nodup → (∀ p ∈ P, due nowMs p = true) →
    (∀ p ∈ P, t.postponed nowMs p = true → ∀ q ∈ P, q.1 ≤ t.expire p.2) →
    ∃ exps : EbTree UInt32 ι,
      exps.nodes = (A ++ P.filter fun p => !t.free p) ++ t.requeued nowMs P R ∧
      exps.items.Nodup ∧
      trashLoop nowMs (fuel + P.length) t (P ++ R).head? looped
        = trashLoop nowMs fuel { t with exps := exps, keys := t.left nowMs P }
          (t.requeued nowMs P R).head? looped := by
  induction P with
  | nil =>
    intro t A R hnodes hnodup _ _
    refine ⟨t.exps, by simpa [requeued] using hnodes, hnodup, ?_⟩
    have hkeys : t.left nowMs [] = t.keys := by simp [left]
    rw [hkeys]
    rfl
  | cons p P ih =>
    intro t A R hnodes hnodup hdue hle
    have hdueP : ∀ q ∈ P, due nowMs q = true := fun q hq => hdue q (List.mem_cons_of_mem p hq)
    have hleP : ∀ q ∈ P, t.postponed nowMs q = true → ∀ r ∈ P, r.1 ≤ t.expire q.2 :=
      fun q hq hpost r hr => hle q (List.mem_cons_of_mem p hq) hpost r (List.mem_cons_of_mem p hr)
    have hnow : tickIsLt nowMs p.1 = false := by simpa [due] using hdue p List.mem_cons_self
    rw [List.cons_append] at hnodes
    have hnext := EbTree.next_eq hnodes hnodup
    have hdel := EbTree.nodes_delete hnodes hnodup
    have hnodupDel := EbTree.nodup_items_delete p.2 hnodup
    rw [List.cons_append, List.head?_cons, List.length_cons, ← Nat.add_assoc, left_cons]
    show ∃ exps : EbTree UInt32 ι, _ ∧ _ ∧ trashLoop nowMs (fuel + P.length + 1) t
      (some (p.1, p.2)) looped = _
    rw [trashLoop, hnow, if_neg Bool.false_ne_true, hnext]
    rcases t.fate nowMs p with ⟨href, hfree, hexp, hpost⟩ | ⟨href, hfree, hisexp, hexp, hpost⟩ |
      ⟨href, hfree, hisexp, hexp, hset⟩
    · -- the entry is referenced
      obtain ⟨exps, hexps, hnd, hrun⟩ := ih t (A ++ [p]) R (by simpa using hnodes) hnodup hdueP hleP
      refine ⟨exps, ?_, hnd, ?_⟩
      · rw [hexps, List.filter_cons_of_pos (by simp [hfree])]
        simp [requeued, hpost]
      · simp only [hexp]
        rw [if_pos href, hrun]
        simp [requeued, hpost]
    · -- it has expired
      obtain ⟨exps, hexps, hnd, hrun⟩ := ih (t.trash p.2) A R hdel hnodupDel hdueP hleP
      refine ⟨exps, ?_, hnd, ?_⟩
      · rw [hexps, List.filter_cons_of_neg (by simp [hfree])]
        simp [requeued, hpost]
        rfl
      · simp only [hexp, hisexp]
        rw [if_neg (by simpa using href), if_neg (by simp), hrun]
        simp [requeued, hpost]
        rfl
    · rcases hpost : t.postponed nowMs p
      · -- it has no date any more
        obtain ⟨exps, hexps, hnd, hrun⟩ := ih (t.deleteExp p.2) A R hdel hnodupDel hdueP hleP
        refine ⟨exps, ?_, hnd, ?_⟩
        · rw [hexps, List.filter_cons_of_neg (by simp [hfree])]
          simp [requeued, hpost]
          rfl
        · simp only [hexp, hisexp, hset, hpost]
          rw [if_neg (by simpa using href), if_pos (by simp), if_pos (by simp), hrun]
          simp [requeued, hpost]
          rfl
      · -- it goes behind the piece
        have hP : ∀ q ∈ P, q.1 ≤ t.expire p.2 :=
          fun q hq => hle p List.mem_cons_self hpost q (List.mem_cons_of_mem p hq)
        have hA : ∀ q ∈ A, q.1 ≤ t.expire p.2 := fun q hq =>
          ((EbTree.key_le hnodes).1 q hq).trans (hle p List.mem_cons_self hpost p List.mem_cons_self)
        have hreq : (t.requeue p.2).exps.nodes = A ++ (P ++ EbTree.link R (t.expire p.2, p.2)) := by
          show EbTree.link (t.exps.delete p.2).nodes (t.expire p.2, p.2) = _
          rw [hdel, EbTree.link_append hA, EbTree.link_append hP]
        have hhead : (if ∀ n ∈ (P ++ R).head?, t.expire p.2 < n.1 then some (t.expire p.2, p.2)
            else (P ++ R).head?) = (P ++ EbTree.link R (t.expire p.2, p.2)).head? := by
          rw [← EbTree.link_append hP, EbTree.head?_link]
          by_cases hn : ∀ n ∈ (P ++ R).head?, t.expire p.2 < n.1
          · exact (if_pos hn).trans (if_pos hn).symm
          · exact (if_neg hn).trans (if_neg hn).symm
        obtain ⟨exps, hexps, hnd, hrun⟩ := ih (t.requeue p.2) A _ hreq
          (EbTree.nodup_items_insert_delete _ p.2 hnodup) hdueP hleP
        refine ⟨exps, ?_, hnd, ?_⟩
        · rw [hexps, List.filter_cons_of_neg (by simp [hfree])]
          simp [requeued, hpost]
          rfl
        · simp only [hexp, hisexp, hset, hpost]
          rw [if_neg (by simpa using href), if_pos (by simp), if_neg (by simp), hhead, hrun]
          simp [requeued, hpost]
          rfl

end StkTable

end SmartHAProxy
