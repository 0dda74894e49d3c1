/-
What a row of the shared cache gives back.

A run builds rows and stores data in them: a reservation for what is to come, and the
data behind what the row has.  Other rows are built, filled, taken and released in between.

The bytes stored in a row are the first ones of its blocks, and `last_append` names the
block of the last byte, or the one behind it if the row was full when it got longer
(`RowHolds`).  Two things break this.  A row that has just been built has the
`last_append` of an earlier row with the same first block, as long as nobody has cleared
it.  And where the data ends with a block and the row has another one, `last_append`
names the full block: the next data is written over it.

Reading has a limit that does not know about the offset: a read that begins inside the
data may go on behind its end.

Main results: `RowsKept.step` for one call and `shctx_row_data` for runs.
-/
import SmartHAProxy.Shctx.Data

namespace SmartHAProxy

open scoped List

/-! ### Runs -/

inductive StoreCall
  /-- `shctx_row_reserve_hot (shctx, NULL, n)` -/
  | build (n : ℕ)
  /-- the caller's `first->last_append = NULL` -/
  | clearAppend (first : ℕ)
  /-- `shctx_row_reserve_hot (shctx, first, n)`, and `shctx_row_data_append` at
  `first->last_append` unless the reservation returned NULL -/
  | store (first n : ℕ) (src : List UInt8)
  | incHot (first : ℕ)
  | decHot (first : ℕ)
  deriving DecidableEq, Repr

def StoreCall.run (s : RowStore) : StoreCall → Except Fault RowStore
  | .build n => do
    let (t, ret) ← s.rowReserveHot none n
    pure (match ret with
      | some b => { t with rows := b :: t.rows, stored := Function.update t.stored b [] }
      | none => t)
  | .clearAppend first => .ok { s with lastAppend := Function.update s.lastAppend first none }
  | .store first n src => do
    let (t, ret) ← s.rowReserveHot (some first) n
    match ret with
    | none => pure t
    | some _ => do
      let (u, ret) ← t.rowDataAppend first (t.lastAppend first) src
      pure (if ret < 0 then u else
        { u with stored := Function.update u.stored first (u.stored first ++ src) })
  | .incHot first => .ok { s with c := shctxRowIncHot s.c first }
  | .decHot first => .ok { s with c := shctxRowDecHot s.c first }

/-- The calls are made on rows that exist, by who holds a reference; no more is
appended than was reserved, and `last_append` is cleared while there is no data. -/
def StoreCall.Pre (s : RowStore) : StoreCall → Prop
  | .build n => n < 2 ^ 31
  | .clearAppend first =>
    first ∈ s.rows ∧ (s.c.block first).refcount ≠ 0 ∧ (s.c.block first).len = 0
  | .store first n src =>
    first ∈ s.rows ∧ (s.c.block first).refcount ≠ 0 ∧ src.length ≤ n ∧ n < 2 ^ 31
  | .incHot first => first ∈ s.rows ∧ (s.c.block first).refcount ≠ 0xffffffff
  | .decHot first => first ∈ s.rows ∧ (s.c.block first).refcount ≠ 0

namespace RowStore

/-- The number of bytes that the blocks of a row have. -/
def capacity (s : RowStore) (first : ℕ) : ℕ :=
  s.c.blockSize.toNat * (s.c.block first).blockCount

/-- There is no data in the row yet, and `last_append` is that of an earlier row. -/
def StaleAppend (s : RowStore) (first : ℕ) : Prop :=
  (s.c.block first).len = 0 ∧ s.lastAppend first ≠ none ∧ s.lastAppend first ≠ some first

/-- The data ends with a block, the row has another one, and `last_append` names
the block that is full. -/
def FullAppend (s : RowStore) (first : ℕ) : Prop :=
  0 < (s.c.block first).len ∧ s.c.blockSize.toNat ∣ (s.c.block first).len ∧
    (s.c.block first).len < s.capacity first ∧
    s.lastAppend first
      = (rowBlocks s.c first)[(s.c.block first).len / s.c.blockSize.toNat - 1]?

/-- Nothing is to be reserved for a full row, and there is no block: the loop finds
none, and its NULL is read through. -/
def NoBlock (s : RowStore) (first n : ℕ) : Prop :=
  n = 0 ∧ s.capacity first = (s.c.block first).len ∧ s.c.avail = []

/-- The bytes from `offset` on, `len` of them at most. -/
def GetExact (s : RowStore) (first offset len : ℕ) : Prop :=
  s.rowDataGet first offset len
    = (((s.stored first).drop offset).take len,
        min len (s.stored first).length - (((s.stored first).drop offset).take len).length)

/-- The read asks for nothing, or it stays within the data, or there is nothing but data in
the blocks, or it begins behind them. -/
def GetWithin (s : RowStore) (first offset len : ℕ) : Prop :=
  min len (s.c.block first).len = 0 ∨
    offset + min len (s.c.block first).len ≤ (s.c.block first).len ∨
    (s.c.block first).len = s.capacity first ∨ s.capacity first ≤ offset

end RowStore

/-- The call does not come upon a place where the data of a row is lost.  Nothing is appended
if the reservation is refused. -/
def StoreCall.Keeps (s : RowStore) : StoreCall → Prop
  | .store first n src => reserveRefused s.c (some first) n = true ∨ ¬ s.NoBlock first n ∧
      (src = [] ∨ ¬ s.StaleAppend first ∧ ¬ s.FullAppend first)
  | _ => True

/-! ### The invariant -/

structure RowStore.RowHolds (s : RowStore) (b : ℕ) : Prop where
  length : (s.stored b).length = (s.c.block b).len
  stored : s.stored b <+: chainBytes s.data s.c.blockSize.toNat (rowBlocks s.c b)
  lastAppend : s.stored b ≠ [] →
    s.lastAppend b = (rowBlocks s.c b)[((s.stored b).length - 1) / s.c.blockSize.toNat]? ∨
    s.c.blockSize.toNat ∣ (s.stored b).length ∧
      (s.stored b).length / s.c.blockSize.toNat < (rowBlocks s.c b).length ∧
      s.lastAppend b = (rowBlocks s.c b)[(s.stored b).length / s.c.blockSize.toNat]?

/-- A cache whose rows hold what was stored. -/
structure RowsKept (n : ℕ) (s : RowStore) (hs as : List (List ℕ)) : Prop where
  tiled : Tiled n s.toRowCache hs as
  sizes : Sizes n s.c
  pos : 0 < s.c.blockSize
  strict : n * s.c.blockSize < 2 ^ 31 ∨
    0 < s.c.maxObjSize ∧ s.c.maxObjSize + s.c.blockSize < 2 ^ 31
  holds : ∀ b ∈ s.rows, s.RowHolds b

variable {n : ℕ} {s t : RowStore} {hs as : List (List ℕ)} {b : ℕ}

theorem RowStore.RowHolds.length_le (h : s.RowHolds b) :
    (s.stored b).length ≤ s.c.blockSize.toNat * (rowBlocks s.c b).length :=
  length_chainBytes ▸ h.stored.length_le

/-- A row keeps its data where its blocks do; it may get longer. -/
theorem RowStore.RowHolds.frame (h : s.RowHolds b) (hpos : 0 < s.c.blockSize) (ext : List ℕ)
    (hbs : t.c.blockSize = s.c.blockSize) (hlen : (t.c.block b).len = (s.c.block b).len)
    (hstored : t.stored b = s.stored b) (hblocks : rowBlocks t.c b = rowBlocks s.c b ++ ext)
    (hdata : ∀ x ∈ rowBlocks s.c b, t.data x = s.data x)
    (hlast : s.stored b ≠ [] → t.lastAppend b = s.lastAppend b ∨
      (s.stored b).length = s.c.blockSize.toNat * (rowBlocks s.c b).length ∧ ext ≠ [] ∧
        t.lastAppend b = ext.head?) : t.RowHolds b := by
  have hsize : 0 < s.c.blockSize.toNat := by omega
  refine ⟨by rw [hstored, hlen, h.length], ?_, ?_⟩
  · rw [hstored, hbs, hblocks, chainBytes_append, chainBytes_congr hdata]
    exact h.stored.trans (List.prefix_append _ _)
  · rw [hstored, hbs, hblocks]
    intro hne
    have hL : 0 < (s.stored b).length := List.length_pos_iff.mpr hne
    rcases hlast hne with hsame | ⟨hfull, hext, hhead⟩
    · rw [hsame]
      refine (h.lastAppend hne).imp (fun heq => ?_) fun ⟨hdvd, hlt, heq⟩ => ⟨hdvd, ?_, ?_⟩
      · rw [heq, List.getElem?_append_left]
        apply (Nat.div_lt_iff_lt_mul hsize).mpr
        have hle := h.length_le
        rw [Nat.mul_comm] at hle
        omega
      · rw [List.length_append]
        omega
      · rw [heq, List.getElem?_append_left hlt]
    · right
      have hdiv : (s.stored b).length / s.c.blockSize.toNat = (rowBlocks s.c b).length := by
        rw [hfull, Nat.mul_div_cancel_left _ hsize]
      refine ⟨⟨_, hfull⟩, ?_, ?_⟩
      · rw [hdiv, List.length_append]
        have := List.length_pos_iff.mpr hext
        omega
      · rw [hhead, hdiv, List.getElem?_append_right (Nat.le_refl _), Nat.sub_self,
          List.head?_eq_getElem?]

theorem RowsKept.row (h : RowsKept n s hs as) (hb : b ∈ s.rows)
    (href : (s.c.block b).refcount ≠ 0) :
    ∃ bs hs₁ hs₂, hs = hs₁ ++ (b :: bs) :: hs₂ ∧ rowBlocks s.c b = b :: bs ∧
      (s.c.block b).blockCount = (b :: bs).length ∧ (hs₁.flatten ++ (b :: bs)).Nodup ∧
      s.c.hot = hs₁.flatten ++ ((b :: bs) ++ hs₂.flatten) := by
  obtain ⟨bs, hseg, hcount, -⟩ := h.tiled.segment hb
  have hblocks := h.tiled.rowBlocks_eq hseg
  obtain ⟨hs₁, hs₂, rfl⟩ := List.append_of_mem (h.tiled.mem_hot hseg href)
  have hhot : s.c.hot = hs₁.flatten ++ ((b :: bs) ++ hs₂.flatten) := by
    rw [h.tiled.hot, List.flatten_append, List.flatten_cons]
  have hnodup := (List.nodup_append.mp h.tiled.nodup_lists).1
  rw [hhot, ← List.append_assoc] at hnodup
  exact ⟨bs, hs₁, hs₂, rfl, hblocks, hcount, (List.nodup_append.mp hnodup).1, hhot⟩

theorem dropWhile_hot {front pre post rest : List ℕ} {x : ℕ}
    (hnodup : (front ++ (pre ++ x :: post)).Nodup) :
    (front ++ ((pre ++ x :: post) ++ rest)).dropWhile (· ≠ x) = (x :: post) ++ rest := by
  have hsplit : front ++ ((pre ++ x :: post) ++ rest)
      = (front ++ pre) ++ (x :: (post ++ rest)) := by
    simp
  have hskip : ∀ y ∈ front ++ pre, decide (y ≠ x) = true := by
    intro y hy
    rw [decide_eq_true_eq]
    rintro rfl
    rw [← List.append_assoc] at hnodup
    exact (List.disjoint_of_nodup_append hnodup) hy List.mem_cons_self
  rw [hsplit, List.dropWhile_append_of_pos hskip, List.dropWhile_cons_of_neg (by simp)]
  rfl

theorem RowsKept.capacity_eq (h : RowsKept n s hs as) (hb : b ∈ s.rows) :
    s.capacity b = s.c.blockSize.toNat * (rowBlocks s.c b).length := by
  obtain ⟨bs, hseg, hcount, -⟩ := h.tiled.segment hb
  rw [RowStore.capacity, hcount, h.tiled.rowBlocks_eq hseg]

/-! ### Reading -/

theorem drop_take_eq_iff {D C : List UInt8} (hD : D <+: C) (offset len : ℕ) :
    (C.drop offset).take (min len D.length) = (D.drop offset).take len ↔
      min len D.length = 0 ∨ offset + min len D.length ≤ D.length ∨ D.length = C.length ∨
        C.length ≤ offset := by
  obtain ⟨E, rfl⟩ := hD
  constructor
  · intro heq
    have hlen := congrArg List.length heq
    simp only [List.length_take, List.length_drop, List.length_append] at hlen ⊢
    omega
  · intro hor
    apply List.ext_getElem
    · simp only [List.length_take, List.length_drop, List.length_append] at hor ⊢
      omega
    · intro i h₁ h₂
      simp only [List.length_take, List.length_drop] at h₂
      simp only [List.getElem_take, List.getElem_drop]
      exact List.getElem_append_left (by omega)

/-- **When a read is exact.** -/
theorem RowsKept.getExact_iff (h : RowsKept n s hs as) (hb : b ∈ s.rows)
    (href : (s.c.block b).refcount ≠ 0) (offset len : ℕ) :
    s.GetExact b offset len ↔ s.GetWithin b offset len := by
  obtain ⟨bs, hs₁, hs₂, -, hblocks, hcount, hnodup, hhot⟩ := h.row hb href
  have hpos := h.pos
  have hsize : 0 < s.c.blockSize.toNat := by omega
  have hD := (h.holds b hb).stored
  have hL := (h.holds b hb).length
  have hmin : (if len > (s.c.block b).len then (s.c.block b).len else len)
      = min len (s.stored b).length := by
    rw [hL]
    split_ifs <;> omega
  have hstart : 0 + (b :: bs).length = (b :: bs).length := Nat.zero_add _
  obtain ⟨hdst, hrest⟩ := getBlocks_chain s.data s.c.blockSize.toNat (b :: bs).length offset
    hs₂.flatten hsize (g := ⟨0, none, [], min len (s.stored b).length⟩) hstart rfl (Nat.zero_le _)
  have hget : s.rowDataGet b offset len
      = (((chainBytes s.data s.c.blockSize.toNat (b :: bs)).drop offset).take
            (min len (s.stored b).length),
          min len (s.stored b).length
            - (((chainBytes s.data s.c.blockSize.toNat (b :: bs)).drop offset).take
                (min len (s.stored b).length)).length) := by
    have hdrop : s.c.hot.dropWhile (· ≠ b) = (b :: bs) ++ hs₂.flatten := by
      have hnodup' : (hs₁.flatten ++ ([] ++ b :: bs)).Nodup := hnodup
      rw [hhot]
      exact dropWhile_hot hnodup'
    rw [RowStore.rowDataGet, hmin, hdrop, hcount]
    rw [Nat.zero_mul, Nat.sub_zero] at hdst hrest
    rw [hdst, hrest, List.nil_append]
  rw [hblocks] at hD
  have hiff := drop_take_eq_iff hD offset len
  rw [length_chainBytes, hL] at hiff
  rw [RowStore.GetExact, hget, RowStore.GetWithin, RowStore.capacity, hcount, ← hiff, ← hL]
  constructor
  · exact fun heq => (Prod.mk.inj heq).1
  · intro heq
    rw [heq]

/-! ### Appending -/

/-- The next byte belongs to the block at which the append begins. -/
def RowStore.Ready (s : RowStore) (b : ℕ) : Prop :=
  (rowBlocks s.c b)[(s.stored b).length / s.c.blockSize.toNat]?
    = some ((s.lastAppend b).getD b)

/-- A row that has room, and in which no data is lost, is ready. -/
theorem RowsKept.ready (h : RowsKept n s hs as) (hb : b ∈ s.rows)
    (hroom : (s.c.block b).len < s.capacity b) (hstale : ¬ s.StaleAppend b)
    (hfull : ¬ s.FullAppend b) : s.Ready b := by
  have hpos := h.pos
  have hsize : 0 < s.c.blockSize.toNat := by omega
  have hrow := h.holds b hb
  have hL := hrow.length
  rw [h.capacity_eq hb, Nat.mul_comm, ← hL] at hroom
  have hlt : (s.stored b).length / s.c.blockSize.toNat < (rowBlocks s.c b).length :=
    (Nat.div_lt_iff_lt_mul hsize).mpr hroom
  have hready : s.lastAppend b
      = (rowBlocks s.c b)[(s.stored b).length / s.c.blockSize.toNat]? → s.Ready b := by
    intro hlast
    rw [List.getElem?_eq_getElem hlt] at hlast
    rw [RowStore.Ready, hlast, List.getElem?_eq_getElem hlt]
    rfl
  rcases eq_or_ne (s.stored b) [] with hnil | hne
  · -- the first block
    obtain ⟨bs, hseg, -, -⟩ := h.tiled.segment hb
    have hfirst : (s.lastAppend b).getD b = b := by
      by_contra hother
      refine hstale ⟨by rw [← hL, hnil]; rfl, ?_, ?_⟩
      · intro hnone
        rw [hnone] at hother
        exact hother rfl
      · intro hsome
        rw [hsome] at hother
        exact hother rfl
    rw [RowStore.Ready, hfirst, hnil, List.length_nil, Nat.zero_div, h.tiled.rowBlocks_eq hseg]
    rfl
  · have hpos' : 0 < (s.stored b).length := List.length_pos_iff.mpr hne
    rcases hrow.lastAppend hne with hlast | ⟨-, -, hlast⟩
    · by_cases hdvd : s.c.blockSize.toNat ∣ (s.stored b).length
      · -- this would be the block that is full
        exfalso
        refine hfull ⟨hL ▸ hpos', hL ▸ hdvd, ?_, ?_⟩
        · rwa [h.capacity_eq hb, Nat.mul_comm, ← hL]
        · rw [hlast, ← hL]
          obtain ⟨q, hq⟩ := hdvd
          have hq0 : 0 < q := by
            rcases Nat.eq_zero_or_pos q with rfl | hq0
            · rw [Nat.mul_zero] at hq
              omega
            · exact hq0
          rw [hq, Nat.mul_div_cancel_left _ hsize]
          congr 1
          apply Nat.div_eq_of_lt_le
          · rw [Nat.mul_comm, Nat.mul_sub, Nat.mul_one]
            have := Nat.le_mul_of_pos_right s.c.blockSize.toNat hq0
            omega
          · rw [Nat.sub_add_cancel hq0, Nat.mul_comm]
            have := Nat.mul_pos hq0 hsize
            omega
      · apply hready
        rw [hlast]
        congr 1
        have hmod : 0 < (s.stored b).length % s.c.blockSize.toNat :=
          Nat.pos_of_ne_zero fun h0 => hdvd (Nat.dvd_of_mod_eq_zero h0)
        have hsum := Nat.div_add_mod (s.stored b).length s.c.blockSize.toNat
        have hmodlt := Nat.mod_lt (s.stored b).length hsize
        apply Nat.div_eq_of_lt_le
        · rw [Nat.mul_comm]
          omega
        · rw [Nat.succ_mul, Nat.mul_comm]
          omega
    · exact hready hlast

theorem RowsKept.room_eq (h : RowsKept n s hs as) (hb : b ∈ s.rows) :
    toUnsigned (s.c.blockSize * (s.c.block b).blockCount - (s.c.block b).len)
      = s.c.blockSize * (s.c.block b).blockCount - (s.c.block b).len := by
  have hlen := h.tiled.len_le b hb
  have hsmall := h.tiled.small b hb
  rw [toUnsigned]
  change s.c.blockSize * ((s.c.block b).blockCount : ℤ) < 2 ^ 31 at hsmall
  generalize s.c.blockSize * ((s.c.block b).blockCount : ℤ) = size at *
  change ((s.c.block b).len : ℤ) ≤ size at hlen
  exact Int.emod_eq_of_lt (by omega) (by omega)

/-- The store after an append: the data is part of the history, unless it was refused. -/
def RowStore.appended (u : RowStore) (first : ℕ) (src : List UInt8) (ret : ℤ) : RowStore :=
  if ret < 0 then u else
    { u with stored := Function.update u.stored first (u.stored first ++ src) }

/-- **What an append does**, where it begins at the right block. -/
theorem RowsKept.append (h : RowsKept n s hs as) (hb : b ∈ s.rows)
    (href : (s.c.block b).refcount ≠ 0) {src : List UInt8}
    (hready : src ≠ [] → (s.c.block b).len < s.capacity b → s.Ready b) :
    ∃ u ret, s.rowDataAppend b (s.lastAppend b) src = .ok (u, ret) ∧
      RowsKept n (u.appended b src ret) hs as := by
  have hroom := h.room_eq hb
  rw [RowStore.rowDataAppend, hroom]
  by_cases hlong : (src.length : ℤ) > s.c.blockSize * (s.c.block b).blockCount - (s.c.block b).len
  · -- there is not enough room
    refine ⟨_, _, if_pos hlong, ?_⟩
    rw [RowStore.appended, if_pos (by omega)]
    exact h
  rw [if_neg hlong]
  by_cases hnil : src = []
  · refine ⟨_, _, if_pos hnil, ?_⟩
    rw [RowStore.appended, if_neg (Int.lt_irrefl 0), hnil, List.append_nil, Function.update_eq_self]
    exact h
  rw [if_neg hnil]
  obtain ⟨bs, hs₁, hs₂, hsplit, hblocks, hcount, hnodup, hhot⟩ := h.row hb href
  have hpos := h.pos
  have hshort := h.sizes.short
  have hrow := h.holds b hb
  have hsmall := h.tiled.small b hb
  change s.c.blockSize * ((s.c.block b).blockCount : ℤ) < 2 ^ 31 at hsmall
  have hbs : ((s.c.blockSize.toNat : ℕ) : ℤ) = s.c.blockSize := Int.toNat_of_nonneg hpos.le
  have hcap : ((s.c.blockSize.toNat * (b :: bs).length : ℕ) : ℤ)
      = s.c.blockSize * (s.c.block b).blockCount := by
    rw [Nat.cast_mul, hbs, hcount]
  have hsrc : 0 < src.length := List.length_pos_iff.mpr hnil
  have hL := hrow.length
  have hcapacity : s.capacity b = s.c.blockSize.toNat * (b :: bs).length := by
    rw [h.capacity_eq hb, hblocks]
  have hat := hready hnil (by rw [hcapacity]; omega)
  rw [RowStore.Ready, hblocks] at hat
  generalize (s.lastAppend b).getD b = x at hat ⊢
  -- the block of the next byte
  obtain ⟨hlt, hx⟩ := List.getElem?_eq_some_iff.mp hat
  have hR : b :: bs = (b :: bs).take ((s.stored b).length / s.c.blockSize.toNat)
      ++ x :: (b :: bs).drop ((s.stored b).length / s.c.blockSize.toNat + 1) := by
    rw [← hx, ← List.drop_eq_getElem_cons hlt, List.take_append_drop]
  have hmem : x ∈ s.c.hot := by
    rw [hhot, hR]
    simp
  rw [if_pos hmem]
  have hdrop : s.c.hot.dropWhile (· ≠ x)
      = x :: (b :: bs).drop ((s.stored b).length / s.c.blockSize.toNat + 1) ++ hs₂.flatten := by
    rw [hhot]
    have hnodup' := hnodup
    rw [hR] at hnodup'
    conv_lhs => rw [hR]
    exact dropWhile_hot hnodup'
  have hfill : Filling b s.c.blockSize.toNat (b :: bs) (s.stored b)
      ⟨s.c, s.lastAppend b, s.data, src⟩ := by
    refine ⟨hbs.symm, hcount, hL.symm, hblocks ▸ hrow.stored, ?_, ?_⟩
    · show (s.stored b).length + src.length ≤ _
      omega
    · omega
  have hfilled := hfill.appendBlocks hs₂.flatten (by omega) (by omega)
    (List.nodup_append.mp hnodup).2.1 hR (by rw [List.length_take]; omega) hnil
  rw [hdrop]
  generalize appendBlocks b _ _ = a at hfilled ⊢
  refine ⟨_, _, rfl, ?_⟩
  have hret : ¬ ((a.src.length : ℤ) < 0) := by omega
  rw [RowStore.appended, if_neg hret]
  have hc : a.c = shctxRowDataAppend s.c b src.length := by
    rw [hfilled.c, shctxRowDataAppend, if_neg (by rw [mul_comm]; exact hlong)]
  have htiled := h.tiled.dataAppend src.length hb
  have hac : ∀ x, (a.c.block x).blockCount = (s.c.block x).blockCount := by
    intro x
    rw [hfilled.c]
    rcases eq_or_ne x b with rfl | hne
    · rw [SharedContext.upd_block_self]
    · rw [SharedContext.upd_block_of_ne _ _ _ hne]
  have hlists : ∀ x, rowBlocks a.c x = rowBlocks s.c x := by
    intro x
    rw [rowBlocks, rowBlocks, hac, hfilled.c]
    rfl
  refine ⟨?_, ?_, ?_, ?_, ?_⟩
  · show Tiled n ⟨a.c, s.rows⟩ hs as
    rw [hc]
    exact htiled
  · exact h.sizes.of_eq (by rw [hfilled.c]; rfl) (by rw [hfilled.c]; rfl)
  · show 0 < a.c.blockSize
    rw [hfilled.c]
    exact hpos
  · show n * a.c.blockSize < 2 ^ 31 ∨ 0 < a.c.maxObjSize ∧ a.c.maxObjSize + a.c.blockSize < 2 ^ 31
    rw [hfilled.c]
    exact h.strict
  · intro y hy
    have hsize : a.c.blockSize = s.c.blockSize := by rw [hfilled.c]; rfl
    rcases eq_or_ne y b with rfl | hne
    · refine ⟨?_, ?_, fun _ => .inl ?_⟩
      · show (Function.update s.stored y _ y).length = (a.c.block y).len
        rw [Function.update_self, hfilled.c, SharedContext.upd_block_self, List.length_append, hL]
      · show Function.update s.stored y _ y
          <+: chainBytes a.data a.c.blockSize.toNat (rowBlocks a.c y)
        rw [Function.update_self, hsize, hlists, hblocks]
        exact hfilled.stored
      · show Function.update s.lastAppend y _ y
          = (rowBlocks a.c y)[((Function.update s.stored y _ y).length - 1) / a.c.blockSize.toNat]?
        rw [Function.update_self, Function.update_self, hsize, hlists, hblocks, hfilled.lastAppend,
          List.length_append]
    · have hdisj := h.tiled.conserved.disjoint y hy b hb hne
      rw [hblocks] at hdisj
      refine (h.holds y hy).frame hpos [] hsize ?_ ?_ ?_ ?_ fun _ => .inl ?_
      · show (a.c.block y).len = _
        rw [hfilled.c, SharedContext.upd_block_of_ne _ _ _ hne]
      · exact Function.update_of_ne hne _ _
      · show rowBlocks a.c y = _
        rw [hlists, List.append_nil]
      · exact fun x hx => hfilled.other x fun hxb => hdisj hx hxb
      · exact Function.update_of_ne hne _ _

/-! ### Reserving -/

section Grown

variable {r : Reserved} {hs₁ hs₂ segs₁ segs₂ old : List (List ℕ)} {ys zs : List ℕ} {b₀ : ℕ}
  {s : RowCache}

theorem Grown.rowBlocks_other (h : Grown n s r hs₁ hs₂ segs₁ segs₂ old ys zs b₀)
    (hb : b ∈ s.rows) (hnot : b ∉ ys ++ zs) (hne : b ≠ b₀) :
    rowBlocks r.c b = rowBlocks s.c b ∧ (r.c.block b).len = (s.c.block b).len := by
  have hafter := h.tiled_after [] fun _ hx => absurd hx List.not_mem_nil
  obtain ⟨bs, hseg, -, -⟩ := h.tiled.segment hb
  refine ⟨?_, by rw [h.cut.same b hnot hne]⟩
  have hkept : b :: bs ∈ hs₁ ++ (old.flatten ++ ys) :: hs₂ ++ (zs.map (fun z => [z]) ++ segs₂) := by
    simp only [List.mem_append, List.mem_cons] at hseg ⊢
    rcases hseg with ((hmem | hmem) | hmem) | hmem | hmem
    · exact .inl (.inl hmem)
    · -- this would be the row that gets longer
      rcases h.cut.single with rfl | ⟨seg, rfl⟩
      · cases hmem
      · obtain rfl := List.mem_singleton.mp hmem
        have hhead := h.cut.head
        exact absurd (Option.some.inj hhead) hne
    · exact .inl (.inr (.inr hmem))
    · exfalso
      apply hnot
      rw [← h.cut.visited]
      exact List.mem_flatten.mpr ⟨_, hmem, List.mem_cons_self⟩
    · exact .inr (.inr hmem)
  exact (hafter.rowBlocks_eq hkept).trans (h.tiled.rowBlocks_eq hseg).symm

theorem Grown.rowBlocks_grown {bs : List ℕ}
    (h : Grown n s r hs₁ hs₂ segs₁ segs₂ [b₀ :: bs] ys zs b₀) :
    rowBlocks r.c b₀ = rowBlocks s.c b₀ ++ ys := by
  have hafter := h.tiled_after [] fun _ hx => absurd hx List.not_mem_nil
  have hmem : b₀ :: (bs ++ ys)
      ∈ hs₁ ++ ([b₀ :: bs].flatten ++ ys) :: hs₂ ++ (zs.map (fun z => [z]) ++ segs₂) := by
    simp
  have hold : b₀ :: bs ∈ hs₁ ++ [b₀ :: bs] ++ hs₂ ++ (segs₁ ++ segs₂) := by simp
  rw [hafter.rowBlocks_eq hmem, h.tiled.rowBlocks_eq hold]
  rfl

end Grown

/-- **What a reservation for a row leaves**: the data, and a row that is ready for more. -/
theorem RowsKept.reserve (h : RowsKept n s hs as) (hb : b ∈ s.rows)
    (href : (s.c.block b).refcount ≠ 0) {k : ℕ} {src : List UInt8} (hmax : k < 2 ^ 31) (hblock : ¬ s.NoBlock b k)
    (hkeep : src = [] ∨ ¬ s.StaleAppend b ∧ ¬ s.FullAppend b) :
    ∃ t ret, s.rowReserveHot (some b) k = .ok (t, ret) ∧
      ∃ hs' as', RowsKept n t hs' as' ∧ (ret ≠ none → b ∈ t.rows ∧ (t.c.block b).refcount ≠ 0 ∧
        (src ≠ [] → (t.c.block b).len < t.capacity b → t.Ready b)) := by
  have hremain := h.tiled.rowRemain_eq hb
  have hcap : ((s.capacity b : ℕ) : ℤ) = s.c.blockSize * (s.c.block b).blockCount := by
    rw [RowStore.capacity, Nat.cast_mul, Int.toNat_of_nonneg h.pos.le]
  have hready : src ≠ [] → (s.c.block b).len < s.capacity b → s.Ready b := fun hne hroom =>
    have hkeep := hkeep.resolve_left hne
    h.ready hb hroom hkeep.1 hkeep.2
  have hrow := h.holds b hb
  obtain ⟨r, hr, ⟨hc, hfreed, hnone⟩ |
      ⟨hallowed, hs₁, hs₂, segs₁, segs₂, bs, ys, zs, rfl, rfl, hgrown⟩⟩ :=
    h.tiled.reserveRow_grown h.sizes hb href (Int.natCast_nonneg k) (by omega) (by
      intro h0 hfull
      refine ⟨?_, h.strict⟩
      rintro rfl
      refine hblock ⟨by omega, ?_, h.tiled.avail⟩
      change rowRemain s.c b
        = s.c.blockSize * (s.c.block b).blockCount - (s.c.block b).len at hremain
      change rowRemain s.c b = 0 at hfull
      omega)
  · -- nothing changes
    have hsame : ¬ (reserveRefused s.c (some b) k = false ∧ rowRemain s.c b = 0) := by
      rintro ⟨hallowed, hfull⟩
      rcases hnone with ⟨hrefused, -⟩ | hroom
      · rw [hallowed] at hrefused
        cases hrefused
      · exact hroom hfull
    refine ⟨s, r.ret, ?_, hs, as, h, fun _ => ⟨hb, href, hready⟩⟩
    rw [RowStore.rowReserveHot, hr]
    show Except.ok _ = _
    rw [if_neg hsame, hc, hfreed, filter_take_zero s.toRowCache]
  · -- the row gets longer
    set rows := s.rows.filter (· ∉ s.c.avail.take r.freed) with hrows
    have hafter := hgrown.tiled_after rows fun x hx => .inr hx
    have hblocks := hgrown.rowBlocks_grown
    have hmem : b ∈ rows := by
      refine hgrown.mem_rows.mpr ⟨hb, ?_⟩
      exact hgrown.tiled.not_mem_visited hgrown.cut.visited href
    have havail : s.c.avail.head? = ys.head? := by
      rw [hgrown.avail, List.append_assoc, List.head?_append_of_ne_nil _ hgrown.ne_nil]
    set lastAppend := if reserveRefused s.c (some b) k = false ∧ rowRemain s.c b = 0 then
      Function.update s.lastAppend b s.c.avail.head? else s.lastAppend with hlast
    have hother {x : ℕ} (hx : x ≠ b) : lastAppend x = s.lastAppend x := by
      rw [hlast]
      split_ifs
      · exact Function.update_of_ne hx _ _
      · rfl
    have hfull : rowRemain s.c b = 0 ↔
        (s.stored b).length = s.c.blockSize.toNat * (rowBlocks s.c b).length := by
      rw [hrow.length, ← h.capacity_eq hb]
      change rowRemain s.c b
        = s.c.blockSize * (s.c.block b).blockCount - (s.c.block b).len at hremain
      omega
    have hlastB : lastAppend b
        = if (s.stored b).length = s.c.blockSize.toNat * (rowBlocks s.c b).length then ys.head?
          else s.lastAppend b := by
      rw [hlast]
      by_cases h0 : rowRemain s.c b = 0
      · rw [if_pos ⟨hallowed, h0⟩, if_pos (hfull.mp h0), Function.update_self, havail]
      · rw [if_neg (fun hand => h0 hand.2), if_neg (fun heq => h0 (hfull.mpr heq))]
    refine ⟨{ s with c := r.c, lastAppend := lastAppend, rows := rows }, some b, ?_, _, _,
      ⟨hafter, h.sizes.of_eq hgrown.cut.blockSize hgrown.maxObjSize, ?_, ?_, ?_⟩, fun _ =>
      ⟨hmem, hgrown.cut.ref, fun hne hroom => ?_⟩⟩
    · rw [RowStore.rowReserveHot, hr]
      show Except.ok _ = _
      rw [hgrown.ret]
    · show 0 < r.c.blockSize
      rw [hgrown.cut.blockSize]
      exact h.pos
    · show n * r.c.blockSize < 2 ^ 31 ∨ 0 < r.c.maxObjSize ∧ r.c.maxObjSize + r.c.blockSize < 2 ^ 31
      rw [hgrown.cut.blockSize, hgrown.maxObjSize]
      exact h.strict
    · intro x hx
      obtain ⟨hxs, hnot⟩ := hgrown.mem_rows.mp hx
      rcases eq_or_ne x b with rfl | hne
      · refine hrow.frame h.pos ys hgrown.cut.blockSize (hgrown.kept (List.cons_ne_nil _ _)) rfl
          hblocks (fun _ _ => rfl) fun _ => ?_
        show lastAppend x = _ ∨ _ ∧ _ ∧ lastAppend x = _
        rw [hlastB]
        split_ifs with heq
        · exact .inr ⟨heq, hgrown.ne_nil, rfl⟩
        · exact .inl rfl
      · obtain ⟨hsame, hlen⟩ := hgrown.rowBlocks_other hxs hnot hne
        refine (h.holds x hxs).frame h.pos [] hgrown.cut.blockSize hlen rfl ?_ (fun _ _ => rfl)
          fun _ => .inl (hother hne)
        rw [List.append_nil]
        exact hsame
    · -- the next byte belongs to the row as it was, or to the first new block
      have hsize : 0 < s.c.blockSize.toNat := by
        have := h.pos
        omega
      rw [RowStore.Ready]
      show (rowBlocks r.c b)[(s.stored b).length / r.c.blockSize.toNat]?
        = some ((lastAppend b).getD b)
      rw [hgrown.cut.blockSize, hblocks, hlastB]
      split_ifs with heq
      · obtain ⟨y, hy⟩ : ∃ y, ys.head? = some y :=
          Option.isSome_iff_exists.mp (List.isSome_head?.mpr hgrown.ne_nil)
        rw [heq, Nat.mul_div_cancel_left _ hsize, List.getElem?_append_right (Nat.le_refl _),
          Nat.sub_self, ← List.head?_eq_getElem?, hy]
        rfl
      · have hlt : (s.stored b).length < s.c.blockSize.toNat * (rowBlocks s.c b).length :=
          lt_of_le_of_ne hrow.length_le heq
        have hdiv : (s.stored b).length / s.c.blockSize.toNat < (rowBlocks s.c b).length := by
          apply (Nat.div_lt_iff_lt_mul hsize).mpr
          rwa [Nat.mul_comm]
        rw [List.getElem?_append_left hdiv]
        apply hready hne
        rwa [← hrow.length, h.capacity_eq hb]

/-! ### Every call -/

/-- A new row, without data; the others stay. -/
theorem RowsKept.build (h : RowsKept n s hs as) {k : ℕ} (hmax : k < 2 ^ 31) :
    ∃ t, StoreCall.run s (.build k) = .ok t ∧ ∃ hs' as', RowsKept n t hs' as' := by
  have hmax' : (k : ℤ) < 2 ^ 31 := by omega
  obtain ⟨r, hr, rfl | ⟨segs₁, segs₂, ys, zs, b₀, rfl, hgrown⟩⟩ :=
    h.tiled.reserveNew_grown h.sizes hmax'
  · refine ⟨s, ?_, hs, as, h⟩
    rw [StoreCall.run, RowStore.rowReserveHot, hr]
    show Except.ok _ = _
    rw [filter_take_zero s.toRowCache]
  · set rows := s.rows.filter (· ∉ s.c.avail.take r.freed) with hrows
    have hafter := hgrown.tiled_after (b₀ :: rows) fun x hx => List.mem_cons.mp hx
    refine ⟨{ s with c := r.c, rows := b₀ :: rows, stored := Function.update s.stored b₀ [] }, ?_,
      _, _, hafter, h.sizes.of_eq hgrown.cut.blockSize hgrown.maxObjSize, ?_, ?_, ?_⟩
    · rw [StoreCall.run, RowStore.rowReserveHot, hr]
      show Except.ok _ = _
      rw [hgrown.ret]
    · show 0 < r.c.blockSize
      rw [hgrown.cut.blockSize]
      exact h.pos
    · show n * r.c.blockSize < 2 ^ 31 ∨ 0 < r.c.maxObjSize ∧ r.c.maxObjSize + r.c.blockSize < 2 ^ 31
      rw [hgrown.cut.blockSize, hgrown.maxObjSize]
      exact h.strict
    · intro x hx
      rcases eq_or_ne x b₀ with rfl | hne
      · refine ⟨?_, ?_, fun hstored => absurd (Function.update_self ..) hstored⟩
        · show (Function.update s.stored x [] x).length = (r.c.block x).len
          rw [Function.update_self, hgrown.fresh rfl]
          rfl
        · show Function.update s.stored x [] x <+: _
          rw [Function.update_self]
          exact List.nil_prefix
      · obtain ⟨hxs, hnot⟩ := hgrown.mem_rows.mp ((List.mem_cons.mp hx).resolve_left hne)
        obtain ⟨hsame, hlen⟩ := hgrown.rowBlocks_other hxs hnot hne
        refine (h.holds x hxs).frame h.pos [] hgrown.cut.blockSize hlen
          (Function.update_of_ne hne _ _) ?_ (fun _ _ => rfl) fun _ => .inl rfl
        rw [List.append_nil]
        exact hsame

theorem RowsKept.moved (h : RowsKept n s hs as) {c : SharedContext} {hs' as' : List (List ℕ)}
    (ht : Tiled n { s.toRowCache with c := c } hs' as') (hperm : (hs' ++ as').Perm (hs ++ as))
    (hbs : c.blockSize = s.c.blockSize) (hmax : c.maxObjSize = s.c.maxObjSize)
    (hlen : ∀ x, (c.block x).len = (s.c.block x).len) :
    RowsKept n { s with c := c } hs' as' := by
  refine ⟨ht, h.sizes.of_eq hbs hmax, ?_, ?_, ?_⟩
  · show 0 < c.blockSize
    rw [hbs]
    exact h.pos
  · show n * c.blockSize < 2 ^ 31 ∨ 0 < c.maxObjSize ∧ c.maxObjSize + c.blockSize < 2 ^ 31
    rw [hbs, hmax]
    exact h.strict
  · intro x hx
    obtain ⟨bs, hseg, -, -⟩ := h.tiled.segment hx
    refine (h.holds x hx).frame h.pos [] hbs (hlen x) rfl ?_ (fun _ _ => rfl) fun _ => .inl rfl
    rw [List.append_nil]
    exact (ht.rowBlocks_eq (hperm.mem_iff.mpr hseg)).trans (h.tiled.rowBlocks_eq hseg).symm

theorem foldl_block {f : SharedContext → ℕ → SharedContext} (hf : ∀ c b, (f c b).block = c.block) :
    ∀ (bs : List ℕ) (c : SharedContext), (bs.foldl f c).block = c.block := by
  intro bs
  induction bs with
  | nil => exact fun c => rfl
  | cons b bs ih => exact fun c => (ih (f c b)).trans (hf c b)

theorem upd_len (c : SharedContext) (b : ℕ) (f : SharedBlock → SharedBlock)
    (hf : ∀ x, (f x).len = x.len) (x : ℕ) : ((c.upd b f).block x).len = (c.block x).len := by
  rcases eq_or_ne x b with rfl | hne
  · rw [SharedContext.upd_block_self, hf]
  · rw [SharedContext.upd_block_of_ne _ _ _ hne]

theorem incHot_len (c : SharedContext) (b x : ℕ) :
    ((shctxRowIncHot c b).block x).len = (c.block x).len := by
  have hinc (c : SharedContext) := upd_len c b (fun b => { b with refcount := b.refcount + 1 })
    (fun _ => rfl) x
  simp only [shctxRowIncHot]
  split_ifs
  · rw [hinc, foldl_block (f := shctxBlockSetHot) fun _ _ => rfl]
  · exact hinc c

theorem decHot_len (c : SharedContext) (b x : ℕ) :
    ((shctxRowDecHot c b).block x).len = (c.block x).len := by
  have hdec := upd_len c b (fun b => { b with refcount := b.refcount - 1 }) (fun _ => rfl) x
  simp only [shctxRowDecHot]
  split_ifs
  · rw [foldl_block (f := shctxBlockSetAvail) fun _ _ => rfl, hdec]
  · exact hdec

/-- **Every call keeps the data of the rows.** -/
theorem RowsKept.step (h : RowsKept n s hs as) {call : StoreCall} (hpre : call.Pre s)
    (hkeeps : call.Keeps s) : ∃ t, call.run s = .ok t ∧ ∃ hs' as', RowsKept n t hs' as' := by
  cases call with
  | build k => exact h.build hpre
  | clearAppend first =>
    refine ⟨_, rfl, hs, as, h.tiled, h.sizes, h.pos, h.strict, fun x hx => ?_⟩
    refine (h.holds x hx).frame h.pos [] rfl rfl rfl (List.append_nil _).symm (fun _ _ => rfl)
      fun hne => .inl (Function.update_of_ne ?_ _ _)
    rintro rfl
    apply hne
    rw [← List.length_eq_zero_iff, (h.holds x hx).length]
    exact hpre.2.2
  | store first k src =>
    rcases hkeeps with hrefused | hkeeps
    · have hres : s.rowReserveHot (some first) k = .ok (s, none) := by
        rw [RowStore.rowReserveHot, shctxRowReserveHot, if_pos hrefused]
        show Except.ok _ = _
        rw [if_neg (fun hallowed => Bool.noConfusion (hrefused.symm.trans hallowed.1)),
          filter_take_zero s.toRowCache]
      refine ⟨s, ?_, hs, as, h⟩
      rw [StoreCall.run, hres]
      rfl
    obtain ⟨t, ret, hres, hs', as', ht, hrow⟩ :=
      h.reserve hpre.1 hpre.2.1 hpre.2.2.2 hkeeps.1 hkeeps.2
    rcases ret with - | ret
    · refine ⟨t, ?_, hs', as', ht⟩
      rw [StoreCall.run, hres]
      rfl
    · obtain ⟨hmem, href, hready⟩ := hrow (Option.some_ne_none ret)
      obtain ⟨u, got, happ, hu⟩ := ht.append hmem href hready
      refine ⟨_, ?_, hs', as', hu⟩
      rw [StoreCall.run, hres]
      show (t.rowDataAppend first (t.lastAppend first) src >>= _) = _
      rw [happ]
      rfl
  | incHot first =>
    obtain ⟨hs', as', ht, hperm⟩ := h.tiled.incHot hpre.1 hpre.2
    obtain ⟨hbs, hmax⟩ := incHot_sizes s.c first
    exact ⟨_, rfl, hs', as', h.moved ht hperm hbs hmax (incHot_len s.c first)⟩
  | decHot first =>
    obtain ⟨hs', as', ht, hperm⟩ := h.tiled.decHot hpre.1 hpre.2
    obtain ⟨hbs, hmax⟩ := decHot_sizes s.c first
    exact ⟨_, rfl, hs', as', h.moved ht hperm hbs hmax (decHot_len s.c first)⟩

/-! ### Whole runs -/

/-- The cache after `shctx_init`, on any memory. -/
def initStore (maxblocks : ℕ) (blocksize : ℤ) (maxobjsz : ℕ) (lastAppend : ℕ → Option ℕ)
    (data : ℕ → ℕ → UInt8) : RowStore :=
  { initCache maxblocks blocksize maxobjsz with
    lastAppend := lastAppend, data := data, stored := fun _ => [] }

/-- The run succeeds, and at its end reads give back what was stored exactly when `P`. -/
def RunGets (P : RowStore → ℕ → ℕ → ℕ → Prop) (s₀ : RowStore) (calls : List StoreCall) : Prop :=
  ∃ t, calls.foldlM StoreCall.run s₀ = .ok t ∧
    ∀ b ∈ t.rows, (t.c.block b).refcount ≠ 0 → ∀ offset len,
      t.GetExact b offset len ↔ P t b offset len

/-- **Rows give back what was stored**, in every run whose calls come upon no place where
data is lost, by every read that does not look behind the data. -/
theorem shctx_row_data {blocksize : ℤ} {maxobjsz : ℕ} {lastAppend : ℕ → Option ℕ}
    {data : ℕ → ℕ → UInt8} {calls : List StoreCall} (hbs : 0 < shctxBlockSize blocksize)
    (hsmall : n * shctxBlockSize blocksize < 2 ^ 31 ∨
      0 < maxobjsz ∧ maxobjsz + shctxBlockSize blocksize < 2 ^ 31)
    (hmeet : StepsMeet StoreCall.run (fun s call => call.Pre s ∧ call.Keeps s)
      (initStore n blocksize maxobjsz lastAppend data) calls) :
    RunGets RowStore.GetWithin (initStore n blocksize maxobjsz lastAppend data) calls := by
  have hstart : ∃ hs as, RowsKept n (initStore n blocksize maxobjsz lastAppend data) hs as :=
    ⟨_, _, tiled_init n blocksize maxobjsz,
      ⟨hbs.le, Int.bmod_lt (by decide), hsmall.imp id fun h => ⟨h.1, h.2.le⟩⟩, hbs, hsmall,
      fun b hb => absurd hb List.not_mem_nil⟩
  have hstep : ∀ (s : RowStore) (call : StoreCall), (∃ hs as, RowsKept n s hs as) →
      call.Pre s ∧ call.Keeps s → ∃ t, call.run s = .ok t ∧ ∃ hs as, RowsKept n t hs as :=
    fun s call ⟨_, _, h⟩ hcall => h.step hcall.1 hcall.2
  obtain ⟨t, hrun, hs, as, ht⟩ := foldlM_safe hstep hstart hmeet
  exact ⟨t, hrun, fun b hb href offset len => ht.getExact_iff hb href offset len⟩

instance StoreCall.decidablePre (s : RowStore) : (call : StoreCall) → Decidable (call.Pre s)
  | .build _ => Nat.decLt _ _
  | .clearAppend _ => inferInstanceAs (Decidable (_ ∧ _ ∧ _))
  | .store _ _ _ => inferInstanceAs (Decidable (_ ∧ _ ∧ _ ∧ _))
  | .incHot _ => inferInstanceAs (Decidable (_ ∧ _))
  | .decHot _ => inferInstanceAs (Decidable (_ ∧ _))

instance StoreCall.decidableKeeps (s : RowStore) : (call : StoreCall) → Decidable (call.Keeps s)
  | .store _ _ _ =>
    inferInstanceAs (Decidable (_ = true ∨ ¬ (_ ∧ _ ∧ _) ∧
      (_ ∨ ¬ (_ ∧ _ ∧ _) ∧ ¬ (_ ∧ _ ∧ _ ∧ _))))
  | .build _ | .clearAppend _ | .incHot _ | .decHot _ => .isTrue trivial

def fourBlocks : RowStore := initStore 4 8 0 (fun _ => none) fun _ _ => 0

/-- A row of one block gets longer when it is full. -/
def extendedRow : List StoreCall :=
  [.build 8, .store 0 8 [1, 2, 3, 4, 5, 6, 7, 8], .store 0 4 [9, 10, 11, 12]]

theorem shctx_row_data_extend : RunGets RowStore.GetWithin fourBlocks extendedRow := by
  refine shctx_row_data (n := 4) (by decide) (.inl (by decide)) ?_
  refine stepsMeet_cons ⟨by decide, by decide⟩ ?_
  rintro t ht
  obtain rfl := Except.ok.inj ht
  refine stepsMeet_cons ⟨by decide, by decide⟩ ?_
  rintro t ht
  obtain rfl := Except.ok.inj ht
  exact stepsMeet_cons ⟨by decide, by decide⟩ fun t _ => stepsMeet_nil _ _ t

/-- The same data in a row of two blocks: the second part is written over the first one. -/
def overwrittenRow : List StoreCall :=
  [.build 16, .store 0 8 [1, 2, 3, 4, 5, 6, 7, 8], .store 0 4 [9, 10, 11, 12]]

/-- The reads give back what was stored in neither run: in one the data is overwritten, in the
other one a read of twelve bytes from the tenth on goes on behind the data. -/
theorem not_shctx_row_data :
    (StepsMeet StoreCall.run (fun s call => call.Pre s) fourBlocks overwrittenRow ∧
      ¬ RunGets (fun _ _ _ _ => True) fourBlocks overwrittenRow) ∧
    StepsMeet StoreCall.run (fun s call => call.Pre s ∧ call.Keeps s) fourBlocks extendedRow ∧
      ¬ RunGets (fun _ _ _ _ => True) fourBlocks extendedRow := by
  refine ⟨⟨?_, ?_⟩, ?_, ?_⟩
  · refine stepsMeet_cons (by decide) ?_
    rintro t ht
    obtain rfl := Except.ok.inj ht
    refine stepsMeet_cons (by decide) ?_
    rintro t ht
    obtain rfl := Except.ok.inj ht
    exact stepsMeet_cons (by decide) fun t _ => stepsMeet_nil _ _ t
  · rintro ⟨t, ht, hgets⟩
    obtain rfl := Except.ok.inj ht
    have hlost := (hgets 0 (by decide) (by decide) 0 12).mpr trivial
    exact absurd (congrArg Prod.fst hlost) (by decide)
  · refine stepsMeet_cons ⟨by decide, by decide⟩ ?_
    rintro t ht
    obtain rfl := Except.ok.inj ht
    refine stepsMeet_cons ⟨by decide, by decide⟩ ?_
    rintro t ht
    obtain rfl := Except.ok.inj ht
    exact stepsMeet_cons ⟨by decide, by decide⟩ fun t _ => stepsMeet_nil _ _ t
  · rintro ⟨t, ht, hgets⟩
    obtain rfl := Except.ok.inj ht
    have hbehind := (hgets 0 (by decide) (by decide) 10 12).mpr trivial
    exact absurd (congrArg Prod.fst hbehind) (by decide)

end SmartHAProxy
