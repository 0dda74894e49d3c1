/-
The blocks of the shared cache are conserved.

The lists are cut into segments: rows and free blocks (`Tiled`).  A call takes
whole segments from one list to the other one, or cuts up the segments at the
beginning of `avail` to make a new row or to extend one.

Two conditions are put on the calls.  The caller of `shctx_row_dec_hot` holds a
reference, and no row ever has 2^32 references: the counter is unsigned and is
decremented and incremented without a test.  The sizes stay within those of a
`short` and an `int`.
-/
import SmartHAProxy.Shctx.Reserve
import Mathlib.Data.List.Pairwise

namespace SmartHAProxy

variable {b : ℕ} {segs₁ segs₂ : List (List ℕ)} {bs : List ℕ}

/-! ### Calls -/

/-- The context with the rows that exist: those that were reserved and have not
been given up to a later reservation. -/
structure RowCache where
  c : SharedContext
  rows : List ℕ

inductive ShctxCall
  | reserveHot (first : Option ℕ) (dataLen : ℤ)
  | incHot (first : ℕ)
  | decHot (first : ℕ)
  | dataAppend (first len : ℕ)
  deriving DecidableEq, Repr

/-- One call.  The rows whose blocks a reservation visits are given up. -/
def ShctxCall.run (s : RowCache) : ShctxCall → Except Fault RowCache
  | .reserveHot first dataLen => do
    let r ← shctxRowReserveHot s.c first dataLen
    let rows := s.rows.filter (· ∉ s.c.avail.take r.freed)
    pure ⟨r.c, match first, r.ret with
      | none, some ret => ret :: rows
      | _, _ => rows⟩
  | .incHot first => .ok { s with c := shctxRowIncHot s.c first }
  | .decHot first => .ok { s with c := shctxRowDecHot s.c first }
  | .dataAppend first len => .ok { s with c := shctxRowDataAppend s.c first len }

/-- The calls are made on rows that exist.  A row is extended or filled by who
holds a reference, and released by who holds one. -/
def ShctxCall.Pre (s : RowCache) : ShctxCall → Prop
  | .reserveHot none dataLen => dataLen < 2 ^ 31
  | .reserveHot (some first) dataLen =>
    first ∈ s.rows ∧ (s.c.block first).refcount ≠ 0 ∧ 1 ≤ dataLen ∧ dataLen < 2 ^ 31
  | .incHot first => first ∈ s.rows ∧ (s.c.block first).refcount ≠ 0xffffffff
  | .decHot first => first ∈ s.rows ∧ (s.c.block first).refcount ≠ 0
  | .dataAppend first _ => first ∈ s.rows ∧ (s.c.block first).refcount ≠ 0

/-! ### Segments -/

/-- The hot list is made of the segments `hs`, `avail` of the segments `as`. -/
structure Tiled (n : ℕ) (s : RowCache) (hs as : List (List ℕ)) : Prop where
  hot : s.c.hot = hs.flatten
  avail : s.c.avail = as.flatten
  perm : (hs ++ as).flatten.Perm (List.range n)
  nbav : s.c.nbav = as.flatten.length
  tiles : Tiles s.c.block (hs ++ as)
  tail_refcount : ∀ seg ∈ hs ++ as, ∀ b ∈ seg.tail, (s.c.block b).refcount = 0
  hot_refcount : ∀ seg ∈ hs, ∀ b, seg.head? = some b → (s.c.block b).refcount ≠ 0
  avail_refcount : ∀ seg ∈ as, ∀ b, seg.head? = some b → (s.c.block b).refcount = 0
  rows : ∀ b ∈ s.rows, ∃ seg ∈ hs ++ as, seg.head? = some b ∧
    (s.c.block b).lastReserved = seg.getLast?
  len_le : ∀ b ∈ s.rows, ((s.c.block b).len : ℤ) ≤ s.c.blockSize * (s.c.block b).blockCount
  small : ∀ b ∈ s.rows, s.c.blockSize * (s.c.block b).blockCount < 2 ^ 31

structure Sizes (n : ℕ) (c : SharedContext) : Prop where
  nonneg : 0 ≤ c.blockSize
  short : c.blockSize < 2 ^ 15
  small : n * c.blockSize < 2 ^ 31 ∨ 0 < c.maxObjSize ∧ c.maxObjSize + c.blockSize ≤ 2 ^ 31

variable {n : ℕ} {s : RowCache} {hs as : List (List ℕ)}

theorem Tiled.nodup (h : Tiled n s hs as) : (hs ++ as).flatten.Nodup :=
  h.perm.nodup_iff.mpr List.nodup_range

theorem segment_unique {segs : List (List ℕ)} (hnodup : segs.flatten.Nodup) {seg seg' : List ℕ}
    (hseg : seg ∈ segs) (hseg' : seg' ∈ segs) (hb : b ∈ seg) (hb' : b ∈ seg') : seg = seg' := by
  by_contra hne
  have hsymm : Std.Symm (List.Disjoint (α := ℕ)) := ⟨fun _ _ h => h.symm⟩
  have hdisj := (List.nodup_flatten.mp hnodup).2
  exact hdisj.forall hseg hseg' hne hb hb'

theorem segment_not_mem_rest (hnodup : (segs₁ ++ (b :: bs) :: segs₂).flatten.Nodup) :
    b :: bs ∉ segs₁ ++ segs₂ := by
  intro hmem
  have hperm : (segs₁ ++ (b :: bs) :: segs₂).flatten.Perm ((b :: bs) ++ (segs₁ ++ segs₂).flatten) := by
    have hmiddle : (segs₁ ++ (b :: bs) :: segs₂).Perm ((b :: bs) :: (segs₁ ++ segs₂)) :=
      List.perm_middle
    simpa using hmiddle.flatten
  have hdisj := List.disjoint_of_nodup_append (hperm.nodup_iff.mp hnodup)
  exact hdisj List.mem_cons_self (List.mem_flatten.mpr ⟨b :: bs, hmem, List.mem_cons_self⟩)

theorem listFrom_flatten (hnodup : (segs₁ ++ (b :: bs) :: segs₂).flatten.Nodup) :
    listFrom (segs₁ ++ (b :: bs) :: segs₂).flatten b (b :: bs).length = b :: bs := by
  have hflat : (segs₁ ++ (b :: bs) :: segs₂).flatten
      = segs₁.flatten ++ (b :: bs ++ segs₂.flatten) := by simp
  rw [hflat] at hnodup ⊢
  have hskip : ∀ x ∈ segs₁.flatten, decide (x ≠ b) = true := by
    intro x hx
    rw [decide_eq_true_eq]
    rintro rfl
    exact (List.disjoint_of_nodup_append hnodup) hx (by simp)
  rw [listFrom, List.dropWhile_append_of_pos hskip, List.cons_append,
    List.dropWhile_cons_of_neg (by simp), Nat.max_eq_right (by simp), ← List.cons_append]
  exact List.take_left

theorem foldl_setHot {xs post : List ℕ} :
    ∀ {c : SharedContext} {pre : List ℕ}, c.avail = pre ++ (xs ++ post) →
      (c.hot ++ c.avail).Nodup →
      xs.foldl shctxBlockSetHot c
        = { c with hot := c.hot ++ xs, avail := pre ++ post, nbav := c.nbav - xs.length } := by
  induction xs with
  | nil =>
    intro c pre havail _
    rw [List.nil_append] at havail
    rw [← havail, List.append_nil]
    rfl
  | cons x xs ih =>
    intro c pre havail hnodup
    have hx : x ∉ c.hot := fun hmem =>
      (List.disjoint_of_nodup_append hnodup) hmem (by simp [havail])
    have hx' : x ∉ pre := by
      intro hmem
      have hnd := (List.nodup_append.mp hnodup).2.1
      rw [havail] at hnd
      exact (List.disjoint_of_nodup_append hnd) hmem (by simp)
    have hset : shctxBlockSetHot c x
        = { c with hot := c.hot ++ [x], avail := pre ++ (xs ++ post), nbav := c.nbav - 1 } := by
      rw [shctxBlockSetHot, havail, List.erase_of_not_mem hx, List.erase_append_right _ hx']
      simp
    have hnodup' : (c.hot ++ [x] ++ (pre ++ (xs ++ post))).Nodup := by
      refine hnodup.perm ?_
      rw [havail, List.append_assoc]
      exact List.Perm.append_left c.hot (by simp [List.perm_middle])
    rw [List.foldl_cons, hset, ih rfl hnodup']
    simp [Nat.sub_sub, Nat.add_comm]

theorem foldl_setAvail {xs post : List ℕ} :
    ∀ {c : SharedContext} {pre : List ℕ}, c.hot = pre ++ (xs ++ post) →
      (c.hot ++ c.avail).Nodup →
      xs.foldl shctxBlockSetAvail c
        = { c with hot := pre ++ post, avail := c.avail ++ xs, nbav := c.nbav + xs.length } := by
  induction xs with
  | nil =>
    intro c pre hhot _
    rw [List.nil_append] at hhot
    rw [← hhot, List.append_nil]
    rfl
  | cons x xs ih =>
    intro c pre hhot hnodup
    have hx : x ∉ c.avail := fun hmem =>
      (List.disjoint_of_nodup_append hnodup) (by simp [hhot]) hmem
    have hx' : x ∉ pre := by
      intro hmem
      have hnd := (List.nodup_append.mp hnodup).1
      rw [hhot] at hnd
      exact (List.disjoint_of_nodup_append hnd) hmem (by simp)
    have hset : shctxBlockSetAvail c x
        = { c with hot := pre ++ (xs ++ post), avail := c.avail ++ [x], nbav := c.nbav + 1 } := by
      rw [shctxBlockSetAvail, hhot, List.erase_of_not_mem hx, List.erase_append_right _ hx']
      simp
    have hnodup' : (pre ++ (xs ++ post) ++ (c.avail ++ [x])).Nodup := by
      refine hnodup.perm ?_
      rw [hhot]
      simp only [List.append_assoc, List.cons_append]
      refine List.Perm.append_left pre ?_
      rw [← List.append_assoc xs, ← List.append_assoc xs, ← List.append_assoc (xs ++ post)]
      exact (List.perm_append_singleton x _).symm
    rw [List.foldl_cons, hset, ih rfl hnodup']
    simp only [List.append_assoc, List.singleton_append, List.length_cons]
    rw [Nat.add_assoc, Nat.add_comm 1]

/-! ### References and data -/

theorem Tiled.nodup_lists (h : Tiled n s hs as) : (s.c.hot ++ s.c.avail).Nodup := by
  rw [h.hot, h.avail, ← List.flatten_append]
  exact h.nodup

theorem Tiled.segment (h : Tiled n s hs as) (hb : b ∈ s.rows) :
    ∃ bs, b :: bs ∈ hs ++ as ∧ (s.c.block b).blockCount = (b :: bs).length ∧
      (s.c.block b).lastReserved = (b :: bs).getLast? := by
  obtain ⟨seg, hseg, hhead, hlast⟩ := h.rows b hb
  obtain ⟨b', bs, rfl, hcount⟩ := h.tiles seg hseg
  obtain rfl : b' = b := by simpa using hhead
  exact ⟨bs, hseg, hcount, hlast⟩

theorem Tiled.mem_hot (h : Tiled n s hs as) (hseg : b :: bs ∈ hs ++ as)
    (hb : (s.c.block b).refcount ≠ 0) : b :: bs ∈ hs := by
  rcases List.mem_append.mp hseg with hmem | hmem
  · exact hmem
  · exact absurd (h.avail_refcount _ hmem b rfl) hb

theorem Tiled.mem_avail (h : Tiled n s hs as) (hseg : b :: bs ∈ hs ++ as)
    (hb : (s.c.block b).refcount = 0) : b :: bs ∈ as := by
  rcases List.mem_append.mp hseg with hmem | hmem
  · exact absurd hb (h.hot_refcount _ hmem b rfl)
  · exact hmem

/-- Segments with the same blocks in other places, where only the reference
counter and the length of the first block of one segment change. -/
theorem Tiled.change (h : Tiled n s hs as) (hseg : b :: bs ∈ hs ++ as)
    (f : SharedBlock → SharedBlock) (hcount : ∀ x, (f x).blockCount = x.blockCount)
    (hlast : ∀ x, (f x).lastReserved = x.lastReserved)
    (hlen : ((f (s.c.block b)).len : ℤ) ≤ s.c.blockSize * (s.c.block b).blockCount)
    {hs' as' : List (List ℕ)} (hperm : (hs' ++ as').Perm (hs ++ as)) {nbav : ℕ}
    (hnbav : nbav = as'.flatten.length)
    (hhot : ∀ seg ∈ hs', seg ∈ hs ∧ seg ≠ b :: bs ∨ seg = b :: bs ∧ (f (s.c.block b)).refcount ≠ 0)
    (havail : ∀ seg ∈ as', seg ∈ as ∧ seg ≠ b :: bs ∨
      seg = b :: bs ∧ (f (s.c.block b)).refcount = 0) :
    Tiled n { s with c := { s.c.upd b f with
      hot := hs'.flatten, avail := as'.flatten, nbav := nbav } } hs' as' := by
  have hmem : ∀ seg, seg ∈ hs' ++ as' ↔ seg ∈ hs ++ as := fun seg => hperm.mem_iff
  have hblock (x : ℕ) : (s.c.upd b f).block x = if x = b then f (s.c.block b) else s.c.block x := by
    split_ifs with hx
    · rw [hx, SharedContext.upd_block_self]
    · rw [SharedContext.upd_block_of_ne _ _ _ hx]
  have hcount' (x : ℕ) : ((s.c.upd b f).block x).blockCount = (s.c.block x).blockCount := by
    rw [hblock]
    split_ifs with hx
    · rw [hcount, hx]
    · rfl
  have hlast' (x : ℕ) : ((s.c.upd b f).block x).lastReserved = (s.c.block x).lastReserved := by
    rw [hblock]
    split_ifs with hx
    · rw [hlast, hx]
    · rfl
  -- `b` is in one segment only, and there the first block
  have hother {seg : List ℕ} (hs₁ : seg ∈ hs ++ as) (hne : seg ≠ b :: bs) {x : ℕ} (hx : x ∈ seg) :
      (s.c.upd b f).block x = s.c.block x := by
    refine (hblock x).trans (if_neg ?_)
    rintro rfl
    exact hne (segment_unique h.nodup hs₁ hseg hx List.mem_cons_self)
  have htail {seg : List ℕ} (hs₁ : seg ∈ hs ++ as) {x : ℕ} (hx : x ∈ seg.tail) :
      (s.c.upd b f).block x = s.c.block x := by
    by_cases hne : seg = b :: bs
    · subst hne
      have hnd : (b :: bs).Nodup := (List.nodup_flatten.mp h.nodup).1 _ hs₁
      refine (hblock x).trans (if_neg ?_)
      rintro rfl
      exact (List.nodup_cons.mp hnd).1 hx
    · exact hother hs₁ hne (List.mem_of_mem_tail hx)
  refine ⟨rfl, rfl, hperm.flatten.trans h.perm, hnbav, ?_, ?_, ?_, ?_, ?_, ?_, ?_⟩
  · intro seg hs₁
    obtain ⟨x, xs, rfl, hx⟩ := h.tiles seg ((hmem seg).mp hs₁)
    exact ⟨x, xs, rfl, (hcount' x).trans hx⟩
  · intro seg hs₁ x hx
    have hs₂ := (hmem seg).mp hs₁
    show ((s.c.upd b f).block x).refcount = 0
    rw [htail hs₂ hx]
    exact h.tail_refcount seg hs₂ x hx
  · intro seg hs₁ x hx
    show ((s.c.upd b f).block x).refcount ≠ 0
    rcases hhot seg hs₁ with ⟨hold, hne⟩ | ⟨rfl, hnew⟩
    · rw [hother (List.mem_append_left as hold) hne (List.mem_of_mem_head? hx)]
      exact h.hot_refcount seg hold x hx
    · obtain rfl : b = x := by simpa using hx
      rwa [SharedContext.upd_block_self]
  · intro seg hs₁ x hx
    show ((s.c.upd b f).block x).refcount = 0
    rcases havail seg hs₁ with ⟨hold, hne⟩ | ⟨rfl, hnew⟩
    · rw [hother (List.mem_append_right hs hold) hne (List.mem_of_mem_head? hx)]
      exact h.avail_refcount seg hold x hx
    · obtain rfl : b = x := by simpa using hx
      rwa [SharedContext.upd_block_self]
  · intro x hx
    obtain ⟨seg, hseg', hhead, hl⟩ := h.rows x hx
    exact ⟨seg, (hmem seg).mpr hseg', hhead, (hlast' x).trans hl⟩
  · intro x hx
    show (((s.c.upd b f).block x).len : ℤ) ≤ s.c.blockSize * ((s.c.upd b f).block x).blockCount
    rw [hcount', hblock]
    split_ifs with hxb
    · rw [hxb]
      exact hlen
    · exact h.len_le x hx
  · intro x hx
    show s.c.blockSize * ((s.c.upd b f).block x).blockCount < 2 ^ 31
    rw [hcount']
    exact h.small x hx

theorem Tiled.change_in_place (h : Tiled n s hs as) (hseg : b :: bs ∈ hs ++ as)
    {f : SharedBlock → SharedBlock} (hcount : ∀ x, (f x).blockCount = x.blockCount)
    (hlast : ∀ x, (f x).lastReserved = x.lastReserved)
    (hlen : ((f (s.c.block b)).len : ℤ) ≤ s.c.blockSize * (s.c.block b).blockCount)
    (href : (f (s.c.block b)).refcount = 0 ↔ (s.c.block b).refcount = 0) :
    Tiled n { s with c := s.c.upd b f } hs as := by
  have hchange := h.change hseg f hcount hlast hlen (List.Perm.refl _) h.nbav
    (fun seg hs₁ => by
      by_cases hne : seg = b :: bs
      · subst hne
        exact .inr ⟨rfl, fun h0 => h.hot_refcount _ hs₁ b rfl (href.mp h0)⟩
      · exact .inl ⟨hs₁, hne⟩)
    (fun seg hs₁ => by
      by_cases hne : seg = b :: bs
      · subst hne
        exact .inr ⟨rfl, href.mpr (h.avail_refcount _ hs₁ b rfl)⟩
      · exact .inl ⟨hs₁, hne⟩)
  rw [← h.hot, ← h.avail] at hchange
  exact hchange

/-- The segments of rows with references are still there, or longer. -/
def Spared (hs segs : List (List ℕ)) : Prop := ∀ seg ∈ hs, ∃ seg' ∈ segs, seg <+: seg'

theorem spared_of_perm {hs' as' : List (List ℕ)} (h : (hs' ++ as').Perm (hs ++ as)) :
    Spared hs (hs' ++ as') := fun seg hseg =>
  ⟨seg, h.mem_iff.mpr (List.mem_append_left as hseg), List.prefix_refl seg⟩

theorem Tiled.incHot (h : Tiled n s hs as) (hb : b ∈ s.rows)
    (hmax : (s.c.block b).refcount ≠ 0xffffffff) :
    ∃ hs' as', Tiled n { s with c := shctxRowIncHot s.c b } hs' as' ∧
      (hs' ++ as').Perm (hs ++ as) := by
  obtain ⟨bs, hseg, hcount, -⟩ := h.segment hb
  have hpos : (s.c.block b).refcount + 1 ≠ 0 := by
    intro h0
    exact hmax (eq_neg_of_add_eq_zero_left h0)
  by_cases h0 : (s.c.block b).refcount = 0
  · -- the row moves from `avail` to the end of the hot list
    obtain ⟨as₁, as₂, rfl⟩ := List.append_of_mem (h.mem_avail hseg h0)
    have hnd : (as₁ ++ (b :: bs) :: as₂).flatten.Nodup := by
      rw [← h.avail]
      exact (List.nodup_append.mp h.nodup_lists).2.1
    have hvisit : listFrom s.c.avail b (s.c.block b).blockCount = b :: bs := by
      rw [h.avail, hcount]
      exact listFrom_flatten hnd
    have havail : s.c.avail = as₁.flatten ++ (b :: bs ++ as₂.flatten) := by
      rw [h.avail]
      simp
    have hrun : shctxRowIncHot s.c b
        = { s.c.upd b (fun x => { x with refcount := x.refcount + 1 }) with
            hot := (hs ++ [b :: bs]).flatten, avail := (as₁ ++ as₂).flatten
            nbav := s.c.nbav - (b :: bs).length } := by
      rw [shctxRowIncHot, if_pos h0, hvisit, foldl_setHot havail h.nodup_lists]
      simp [SharedContext.upd, h.hot]
    have hperm : (hs ++ [b :: bs] ++ (as₁ ++ as₂)).Perm (hs ++ (as₁ ++ (b :: bs) :: as₂)) := by
      rw [List.append_assoc]
      exact List.Perm.append_left hs (by simpa using List.perm_middle.symm)
    refine ⟨hs ++ [b :: bs], as₁ ++ as₂, ?_, hperm⟩
    rw [hrun]
    refine h.change hseg (fun x => { x with refcount := x.refcount + 1 }) (fun _ => rfl) (fun _ => rfl) (h.len_le b hb) hperm ?_ ?_ ?_
    · rw [h.nbav]
      simp only [List.flatten_append, List.flatten_cons, List.length_append]
      omega
    · intro seg hs₁
      rcases List.mem_append.mp hs₁ with hold | hnew
      · refine .inl ⟨hold, ?_⟩
        rintro rfl
        exact h.hot_refcount _ hold b rfl h0
      · exact .inr ⟨List.mem_singleton.mp hnew, hpos⟩
    · intro seg hs₁
      refine .inl ⟨?_, ?_⟩
      · simp only [List.mem_append, List.mem_cons] at hs₁ ⊢
        tauto
      · rintro rfl
        exact segment_not_mem_rest hnd hs₁
  · refine ⟨hs, as, ?_, List.Perm.refl _⟩
    rw [shctxRowIncHot, if_neg h0]
    exact h.change_in_place hseg (fun _ => rfl) (fun _ => rfl) (h.len_le b hb) (by simp [h0, hpos])

theorem Tiled.decHot (h : Tiled n s hs as) (hb : b ∈ s.rows) (hpos : (s.c.block b).refcount ≠ 0) :
    ∃ hs' as', Tiled n { s with c := shctxRowDecHot s.c b } hs' as' ∧
      (hs' ++ as').Perm (hs ++ as) := by
  obtain ⟨bs, hseg, hcount, -⟩ := h.segment hb
  have hhot := h.mem_hot hseg hpos
  by_cases h1 : (s.c.block b).refcount - 1 = 0
  · -- the row moves from the hot list to the end of `avail`
    obtain ⟨hs₁, hs₂, rfl⟩ := List.append_of_mem hhot
    have hnd : (hs₁ ++ (b :: bs) :: hs₂).flatten.Nodup := by
      rw [← h.hot]
      exact (List.nodup_append.mp h.nodup_lists).1
    have hvisit : listFrom s.c.hot b (s.c.block b).blockCount = b :: bs := by
      rw [h.hot, hcount]
      exact listFrom_flatten hnd
    have hhot' : s.c.hot = hs₁.flatten ++ (b :: bs ++ hs₂.flatten) := by
      rw [h.hot]
      simp
    have hrun : shctxRowDecHot s.c b
        = { s.c.upd b (fun x => { x with refcount := x.refcount - 1 }) with
            hot := (hs₁ ++ hs₂).flatten, avail := (as ++ [b :: bs]).flatten
            nbav := s.c.nbav + (b :: bs).length } := by
      have hfold := foldl_setAvail (c := s.c.upd b fun x => { x with refcount := x.refcount - 1 })
        hhot' h.nodup_lists
      simp only [shctxRowDecHot, SharedContext.upd_block_self, h1, if_true]
      rw [show (s.c.upd b fun x => { x with refcount := x.refcount - 1 }).hot = s.c.hot from rfl,
        hvisit, hfold]
      simp [SharedContext.upd, h.avail]
    have hperm : (hs₁ ++ hs₂ ++ (as ++ [b :: bs])).Perm (hs₁ ++ (b :: bs) :: hs₂ ++ as) := by
      simp only [List.append_assoc, List.cons_append]
      refine List.Perm.append_left hs₁ ?_
      rw [← List.append_assoc]
      exact List.perm_append_singleton (b :: bs) (hs₂ ++ as)
    refine ⟨hs₁ ++ hs₂, as ++ [b :: bs], ?_, hperm⟩
    rw [hrun]
    refine h.change hseg (fun x => { x with refcount := x.refcount - 1 }) (fun _ => rfl) (fun _ => rfl) (h.len_le b hb) hperm ?_ ?_ ?_
    · rw [h.nbav]
      simp
    · intro seg hmem
      refine .inl ⟨?_, ?_⟩
      · simp only [List.mem_append, List.mem_cons] at hmem ⊢
        tauto
      · rintro rfl
        exact segment_not_mem_rest hnd hmem
    · intro seg hmem
      rcases List.mem_append.mp hmem with hold | hnew
      · refine .inl ⟨hold, ?_⟩
        rintro rfl
        exact hpos (h.avail_refcount _ hold b rfl)
      · exact .inr ⟨List.mem_singleton.mp hnew, h1⟩
  · refine ⟨hs, as, ?_, List.Perm.refl _⟩
    simp only [shctxRowDecHot, SharedContext.upd_block_self, h1, if_false]
    exact h.change_in_place hseg (fun _ => rfl) (fun _ => rfl) (h.len_le b hb) (by simp [hpos, h1])

theorem Tiled.dataAppend (h : Tiled n s hs as) (len : ℕ) (hb : b ∈ s.rows) :
    Tiled n { s with c := shctxRowDataAppend s.c b len } hs as := by
  obtain ⟨bs, hseg, -, -⟩ := h.segment hb
  rw [shctxRowDataAppend]
  split_ifs with hfull
  · exact h
  · refine h.change_in_place hseg (fun _ => rfl) (fun _ => rfl) ?_ Iff.rfl
    push_cast
    linarith

/-! ### Reservations -/

/-- The segments after a reservation: the blocks `ys` have made the segment `old` of
the hot list longer (or a new one, if `old` is none), `zs` are free blocks now. -/
structure Recut (s : RowCache) (c' : SharedContext) (hs₁ hs₂ segs₁ segs₂ old : List (List ℕ))
    (ys zs : List ℕ) (b₀ : ℕ) : Prop where
  visited : segs₁.flatten = ys ++ zs
  hot : c'.hot = (hs₁ ++ (old.flatten ++ ys) :: hs₂).flatten
  avail : c'.avail = (zs.map (fun z => [z]) ++ segs₂).flatten
  nbav : c'.nbav = (zs.map (fun z => [z]) ++ segs₂).flatten.length
  blockSize : c'.blockSize = s.c.blockSize
  head : (old.flatten ++ ys).head? = some b₀
  count : (c'.block b₀).blockCount = (old.flatten ++ ys).length
  last : (c'.block b₀).lastReserved = (old.flatten ++ ys).getLast?
  ref : (c'.block b₀).refcount ≠ 0
  len : ((c'.block b₀).len : ℤ) ≤ s.c.blockSize * (c'.block b₀).blockCount
  small : s.c.blockSize * (c'.block b₀).blockCount < 2 ^ 31
  taken : ∀ y ∈ ys, y ≠ b₀ → (c'.block y).refcount = 0
  free : ∀ z ∈ zs, (c'.block z).blockCount = 1 ∧ (c'.block z).refcount = 0
  same : ∀ x, x ∉ ys ++ zs → x ≠ b₀ → c'.block x = s.c.block x
  tail : ∀ x ∈ old.flatten, x ≠ b₀ → (s.c.block x).refcount = 0
  single : old = [] ∨ ∃ seg, old = [seg]

theorem Recut.tiled {c' : SharedContext} {hs₁ hs₂ old : List (List ℕ)} {ys zs : List ℕ} {b₀ : ℕ}
    (h : Tiled n s (hs₁ ++ old ++ hs₂) (segs₁ ++ segs₂))
    (hcut : Recut s c' hs₁ hs₂ segs₁ segs₂ old ys zs b₀) (rows : List ℕ)
    (hrows : ∀ b ∈ rows, b = b₀ ∨ b ∈ s.rows ∧ b ∉ ys ++ zs) :
    Tiled n ⟨c', rows⟩ (hs₁ ++ (old.flatten ++ ys) :: hs₂) (zs.map (fun z => [z]) ++ segs₂) := by
  set new := old.flatten ++ ys with hnew
  have hzs : (zs.map (fun z => [z])).flatten = zs := List.flatMap_singleton' zs
  obtain ⟨tail, htail⟩ : ∃ tail, new = b₀ :: tail := List.head?_eq_some_iff.mp hcut.head
  -- all blocks, those of the new segment and the free ones first
  have hperm : (hs₁ ++ new :: hs₂ ++ (zs.map (fun z => [z]) ++ segs₂)).flatten.Perm
      (hs₁ ++ old ++ hs₂ ++ (segs₁ ++ segs₂)).flatten := by
    simp only [List.flatten_append, List.flatten_cons, hcut.visited, hnew, hzs, List.append_assoc]
    refine List.Perm.append_left _ (List.Perm.append_left _ ?_)
    exact List.perm_append_comm_assoc _ _ _
  have hnodup := hperm.nodup_iff.mpr h.nodup
  have hfront : (new ++ zs ++ (hs₁ ++ hs₂ ++ segs₂).flatten).Nodup := by
    refine hnodup.perm ?_
    simp only [List.flatten_append, List.flatten_cons, hzs, List.append_assoc]
    refine (List.perm_append_comm_assoc _ _ _).trans (List.Perm.append_left new ?_)
    rw [← List.append_assoc hs₁.flatten, ← List.append_assoc hs₁.flatten]
    exact List.perm_append_comm_assoc _ _ _
  have hother {seg : List ℕ} (hseg : seg ∈ hs₁ ++ hs₂ ++ segs₂) {x : ℕ} (hx : x ∈ seg) :
      c'.block x = s.c.block x := by
    have hnot : x ∉ new ++ zs := fun hmem =>
      (List.disjoint_of_nodup_append hfront) hmem (List.mem_flatten.mpr ⟨seg, hseg, hx⟩)
    have hys : x ∉ ys ++ zs := by
      simp only [hnew, List.mem_append] at hnot ⊢
      tauto
    refine hcut.same x hys ?_
    rintro rfl
    exact hnot (List.mem_append_left zs (List.mem_of_mem_head? hcut.head))
  have hcases {seg : List ℕ} (hseg : seg ∈ hs₁ ++ new :: hs₂ ++ (zs.map (fun z => [z]) ++ segs₂)) :
      seg = new ∨ (∃ z ∈ zs, seg = [z]) ∨ seg ∈ hs₁ ++ hs₂ ++ segs₂ := by
    simp only [List.mem_append, List.mem_cons, List.mem_map] at hseg ⊢
    rcases hseg with (hseg | hseg | hseg) | ⟨z, hz, rfl⟩ | hseg
    · tauto
    · tauto
    · tauto
    · exact .inr (.inl ⟨z, hz, rfl⟩)
    · tauto
  have hkept {seg : List ℕ} (hseg : seg ∈ hs₁ ++ hs₂ ++ segs₂) :
      seg ∈ hs₁ ++ old ++ hs₂ ++ (segs₁ ++ segs₂) := by
    simp only [List.mem_append] at hseg ⊢
    tauto
  refine ⟨hcut.hot, hcut.avail, hperm.trans h.perm, hcut.nbav, ?_, ?_, ?_, ?_, ?_, ?_, ?_⟩
  · intro seg hseg
    rcases hcases hseg with rfl | ⟨z, hz, rfl⟩ | hold
    · exact ⟨b₀, tail, htail, hcut.count⟩
    · exact ⟨z, [], rfl, (hcut.free z hz).1⟩
    · obtain ⟨x, xs, rfl, hx⟩ := h.tiles seg (hkept hold)
      refine ⟨x, xs, rfl, ?_⟩
      show (c'.block x).blockCount = _
      rw [hother hold List.mem_cons_self, hx]
  · intro seg hseg x hx
    show (c'.block x).refcount = 0
    rcases hcases hseg with rfl | ⟨z, hz, rfl⟩ | hold
    · have hnd : new.Nodup := (List.nodup_append.mp (List.nodup_append.mp hfront).1).1
      have hne : x ≠ b₀ := by
        rintro rfl
        rw [htail] at hx hnd
        exact (List.nodup_cons.mp hnd).1 hx
      rcases List.mem_append.mp (List.mem_of_mem_tail hx) with hxold | hxys
      · have hys : x ∉ ys ++ zs := by
          intro hmem
          have hnd' : (old.flatten ++ (ys ++ zs)).Nodup := by
            rw [← List.append_assoc]
            exact (List.nodup_append.mp hfront).1
          exact (List.disjoint_of_nodup_append hnd') hxold hmem
        rw [hcut.same x hys hne]
        exact hcut.tail x hxold hne
      · exact hcut.taken x hxys hne
    · cases hx
    · rw [hother hold (List.mem_of_mem_tail hx)]
      exact h.tail_refcount seg (hkept hold) x hx
  · intro seg hseg x hx
    show (c'.block x).refcount ≠ 0
    rcases List.mem_append.mp hseg with hold | hseg
    · have hold' : seg ∈ hs₁ ++ hs₂ ++ segs₂ := by simp [hold]
      rw [hother hold' (List.mem_of_mem_head? hx)]
      exact h.hot_refcount seg (by simp [hold]) x hx
    rcases List.mem_cons.mp hseg with rfl | hold
    · obtain rfl : b₀ = x := Option.some.inj (hcut.head.symm.trans hx)
      exact hcut.ref
    · have hold' : seg ∈ hs₁ ++ hs₂ ++ segs₂ := by simp [hold]
      rw [hother hold' (List.mem_of_mem_head? hx)]
      exact h.hot_refcount seg (by simp [hold]) x hx
  · intro seg hseg x hx
    show (c'.block x).refcount = 0
    rcases List.mem_append.mp hseg with hfree | hold
    · obtain ⟨z, hz, rfl⟩ := List.mem_map.mp hfree
      obtain rfl : z = x := by simpa using hx
      exact (hcut.free z hz).2
    · have hold' : seg ∈ hs₁ ++ hs₂ ++ segs₂ := by simp [hold]
      rw [hother hold' (List.mem_of_mem_head? hx)]
      exact h.avail_refcount seg (by simp [hold]) x hx
  · intro b hb
    show ∃ seg ∈ hs₁ ++ new :: hs₂ ++ (zs.map (fun z => [z]) ++ segs₂),
      seg.head? = some b ∧ (c'.block b).lastReserved = seg.getLast?
    by_cases hbb : b = b₀
    · subst hbb
      exact ⟨new, by simp, hcut.head, hcut.last⟩
    obtain ⟨hbrow, hbnot⟩ := (hrows b hb).resolve_left hbb
    obtain ⟨seg, hseg, hhead, hl⟩ := h.rows b hbrow
    have hbseg := List.mem_of_mem_head? hhead
    have hnotold : seg ∉ old := by
      intro hmem
      rcases hcut.single with rfl | ⟨seg', rfl⟩
      · cases hmem
      · obtain rfl := List.mem_singleton.mp hmem
        refine hbb (Option.some.inj (Eq.trans ?_ hcut.head))
        rw [List.flatten_singleton, List.head?_append, hhead]
        rfl
    have hnotvis : seg ∉ segs₁ := fun hmem =>
      hbnot (hcut.visited ▸ List.mem_flatten.mpr ⟨seg, hmem, hbseg⟩)
    refine ⟨seg, ?_, hhead, ?_⟩
    · simp only [List.mem_append, List.mem_cons] at hseg ⊢
      tauto
    · rw [hcut.same b hbnot hbb, hl]
  · intro b hb
    show ((c'.block b).len : ℤ) ≤ c'.blockSize * (c'.block b).blockCount
    rw [hcut.blockSize]
    by_cases hbb : b = b₀
    · subst hbb
      exact hcut.len
    · obtain ⟨hbrow, hbnot⟩ := (hrows b hb).resolve_left hbb
      rw [hcut.same b hbnot hbb]
      exact h.len_le b hbrow
  · intro b hb
    show c'.blockSize * (c'.block b).blockCount < 2 ^ 31
    rw [hcut.blockSize]
    by_cases hbb : b = b₀
    · subst hbb
      exact hcut.small
    · obtain ⟨hbrow, hbnot⟩ := (hrows b hb).resolve_left hbb
      rw [hcut.same b hbnot hbb]
      exact h.small b hbrow

end SmartHAProxy
