/-
The data of the rows of the shared cache.

`shctx_row_data_append` fills the blocks of a row one after the other: it starts at
the block that `last_append` names, and computes where in the block from the room in
the whole row.  `shctx_row_data_get` passes over the blocks before the offset and
copies from the others.

Both are loops over a part of the hot list.  On a row whose stored bytes are the
first ones of its chain of blocks (`Filling`), one turn of the first loop puts the
next piece behind them (`Filling.appendBlock`), and the second one copies what the
chain has from the offset on (`getBlocks_chain`).
-/
import SmartHAProxy.Shctx.Runs
import SmartHAProxy.Lib.Chain

namespace SmartHAProxy

open scoped List

/-- The cache with `last_append` and the data of each block.  `stored` is the history: all that
was appended to a row since it was built. -/
structure RowStore extends RowCache where
  lastAppend : ℕ → Option ℕ
  data : ℕ → ℕ → UInt8
  stored : ℕ → List UInt8

/-! ### The functions -/

/-- `shctx_row_reserve_hot` with `first->last_append`.  The inner loop sets it to the
first block it visits, if `remain` is zero. -/
def RowStore.rowReserveHot (s : RowStore) (first : Option ℕ) (dataLen : ℤ) :
    Except Fault (RowStore × Option ℕ) := do
  let r ← shctxRowReserveHot s.c first dataLen
  let lastAppend := match first with
    | some first =>
      if reserveRefused s.c (some first) dataLen = false ∧ rowRemain s.c first = 0 then
        Function.update s.lastAppend first s.c.avail.head?
      else s.lastAppend
    | none => s.lastAppend
  let rows := s.rows.filter (· ∉ s.c.avail.take r.freed)
  pure ({ s with c := r.c, lastAppend := lastAppend, rows := rows }, r.ret)

/-- The variables of the loop of `shctx_row_data_append`: the headers, `first->last_append`,
the blocks, and what is left of `data`. -/
structure Appending where
  c : SharedContext
  lastAppend : Option ℕ
  data : ℕ → ℕ → UInt8
  src : List UInt8

def appendBlock (first : ℕ) (a : Appending) (block : ℕ) : Appending :=
  let room := toUnsigned (a.c.blockSize * (a.c.block first).blockCount - (a.c.block first).len)
  let remain := room % toUnsigned a.c.blockSize
  -- if `remain` is 0, the blocks before are full, or there is no data yet
  let start := if remain = 0 then 0 else a.c.blockSize - remain
  let remain := if remain = 0 then a.c.blockSize else remain
  let size := (min remain a.src.length).toNat
  { c := a.c.upd first fun b => { b with len := b.len + size }
    lastAppend := some block
    data := Function.update a.data block
      (writeCells (a.data block) start.toNat (a.src.take size))
    src := a.src.drop size }

/-- The loop over the hot list, from a block on. -/
def appendBlocks (first : ℕ) : List ℕ → Appending → Appending
  | [], a => a
  | block :: blocks, a =>
    if a.src = [] then a else appendBlocks first blocks (appendBlock first a block)

/-- `shctx_row_data_append`.  The result is what was not copied, or, if it is negative,
how much room is missing.  A block that is not hot has no way to the end of the hot list. -/
def RowStore.rowDataAppend (s : RowStore) (first : ℕ) (fromBlock : Option ℕ)
    (src : List UInt8) : Except Fault (RowStore × ℤ) :=
  let room := toUnsigned (s.c.blockSize * (s.c.block first).blockCount - (s.c.block first).len)
  let block := fromBlock.getD first
  if src.length > room then .ok (s, room - src.length)
  else if src = [] then .ok (s, 0)
  else if block ∈ s.c.hot then
    let a := appendBlocks first (s.c.hot.dropWhile (· ≠ block))
      ⟨s.c, s.lastAppend first, s.data, src⟩
    .ok ({ s with
      c := a.c
      lastAppend := Function.update s.lastAppend first a.lastAppend
      data := a.data }, a.src.length)
  else .error .outOfBounds

/-- The variables of the loop of `shctx_row_data_get`.  A `start` of -1 is none. -/
structure Getting where
  count : ℕ
  start : Option ℕ
  dst : List UInt8
  len : ℕ

/-- The loop over the hot list, from the first block of the row on. -/
def getBlocks (data : ℕ → ℕ → UInt8) (blockSize blockCount offset : ℕ) :
    List ℕ → Getting → Getting
  | [], g => g
  | block :: blocks, g =>
    if g.count ≥ blockCount ∨ g.len = 0 then g
    else
      let count := g.count + 1
      if count < offset / blockSize + 1 then
        getBlocks data blockSize blockCount offset blocks { g with count := count }
      else
        let start := g.start.getD (offset - (count - 1) * blockSize)
        let size := min (blockSize - start) g.len
        getBlocks data blockSize blockCount offset blocks
          { count := count
            start := some 0
            dst := g.dst ++ (List.range size).map fun i => data block (start + i)
            len := g.len - size }

/-- `shctx_row_data_get`: the bytes that are copied, and the number that is returned. -/
def RowStore.rowDataGet (s : RowStore) (first offset len : ℕ) : List UInt8 × ℕ :=
  let len := if len > (s.c.block first).len then (s.c.block first).len else len
  let g := getBlocks s.data s.c.blockSize.toNat (s.c.block first).blockCount offset
    (s.c.hot.dropWhile (· ≠ first)) ⟨0, none, [], len⟩
  (g.dst, g.len)

/-! ### Reading a row -/

section Get

variable {data : ℕ → ℕ → UInt8} {size count offset : ℕ} {blocks rest : List ℕ} {g : Getting}

theorem getBlocks_done (h : g.count ≥ count ∨ g.len = 0) :
    getBlocks data size count offset blocks g = g := by
  rcases blocks with - | ⟨b, blocks⟩
  · rfl
  · exact if_pos h

theorem getBlocks_copy {b : ℕ} (hcount : g.count < count) (hlen : g.len ≠ 0)
    (hoffset : offset / size ≤ g.count) (start : ℕ)
    (hstart : g.start.getD (offset - g.count * size) = start) :
    getBlocks data size count offset (b :: blocks) g
      = getBlocks data size count offset blocks
        ⟨g.count + 1, some 0, g.dst ++ ((blockBytes (data b) size).drop start).take g.len,
          g.len - min (size - start) g.len⟩ := by
  rw [getBlocks, if_neg (not_or.mpr ⟨Nat.not_le.mpr hcount, hlen⟩), if_neg (by omega),
    blockBytes_drop_take]
  dsimp only
  rw [Nat.add_sub_cancel, hstart]

theorem take_append_take {α : Type*} (xs ys : List α) (k : ℕ) :
    (xs ++ ys).take k = xs.take k ++ ys.take (k - min xs.length k) := by
  rw [List.take_append]
  congr 2
  omega

variable (data size count offset rest) in
theorem getBlocks_rest :
    ∀ {blocks : List ℕ} {g : Getting}, g.count + blocks.length = count → g.start = some 0 →
      offset / size ≤ g.count →
      (getBlocks data size count offset (blocks ++ rest) g).dst
          = g.dst ++ (chainBytes data size blocks).take g.len ∧
        (getBlocks data size count offset (blocks ++ rest) g).len
          = g.len - ((chainBytes data size blocks).take g.len).length := by
  intro blocks
  induction blocks with
  | nil =>
    intro g hcount _ _
    rw [getBlocks_done (.inl hcount.ge)]
    simp
  | cons b blocks ih =>
    intro g hcount hstart hoffset
    rw [List.length_cons] at hcount
    rcases eq_or_ne g.len 0 with hlen | hlen
    · rw [getBlocks_done (.inr hlen), hlen]
      simp
    · have hstart' : g.start.getD (offset - g.count * size) = 0 := by rw [hstart]; rfl
      rw [List.cons_append, getBlocks_copy (by omega) hlen hoffset 0 hstart', List.drop_zero,
        Nat.sub_zero]
      obtain ⟨hdst, hrest⟩ := ih (g := ⟨g.count + 1, some 0,
        g.dst ++ (blockBytes (data b) size).take g.len, g.len - min size g.len⟩)
        (by dsimp only; omega) rfl (by dsimp only; omega)
      rw [hdst, hrest, chainBytes_cons, take_append_take, length_blockBytes]
      dsimp only
      refine ⟨List.append_assoc .., ?_⟩
      simp only [List.length_append, List.length_take, length_blockBytes]
      omega

variable (data size count offset rest) in
/-- **What the loop copies** is what the chain has from the offset on. -/
theorem getBlocks_chain (hsize : 0 < size) :
    ∀ {blocks : List ℕ} {g : Getting}, g.count + blocks.length = count → g.start = none →
      g.count ≤ offset / size →
      (getBlocks data size count offset (blocks ++ rest) g).dst
          = g.dst ++ ((chainBytes data size blocks).drop (offset - g.count * size)).take g.len ∧
        (getBlocks data size count offset (blocks ++ rest) g).len
          = g.len - (((chainBytes data size blocks).drop
              (offset - g.count * size)).take g.len).length := by
  intro blocks
  induction blocks with
  | nil =>
    intro g hcount _ _
    rw [getBlocks_done (.inl hcount.ge)]
    simp
  | cons b blocks ih =>
    intro g hcount hstart hoffset
    rw [List.length_cons] at hcount
    have hdiv : size * (offset / size) ≤ offset := Nat.mul_div_le offset size
    have hlt : offset < size * (offset / size) + size := Nat.lt_mul_div_succ offset hsize
    have hmul : g.count * size ≤ size * (offset / size) := by
      rw [Nat.mul_comm]
      exact Nat.mul_le_mul_left size hoffset
    rcases eq_or_ne g.len 0 with hlen | hlen
    · rw [getBlocks_done (.inr hlen), hlen]
      simp
    rcases hoffset.lt_or_eq with hskip | heq
    · -- a block before the one with the offset
      have hnext : (g.count + 1) * size ≤ size * (offset / size) := by
        rw [Nat.mul_comm]
        exact Nat.mul_le_mul_left size hskip
      rw [Nat.succ_mul] at hnext
      have hpass : getBlocks data size count offset (b :: blocks ++ rest) g
          = getBlocks data size count offset (blocks ++ rest) { g with count := g.count + 1 } := by
        rw [List.cons_append, getBlocks, if_neg (not_or.mpr ⟨by omega, hlen⟩),
          if_pos (by omega)]
      have hdrop : (chainBytes data size (b :: blocks)).drop (offset - g.count * size)
          = (chainBytes data size blocks).drop (offset - (g.count + 1) * size) := by
        rw [chainBytes_cons, List.drop_append, List.drop_of_length_le
          (by rw [length_blockBytes]; omega), length_blockBytes, List.nil_append, Nat.succ_mul,
          Nat.sub_sub]
      rw [hpass, hdrop]
      exact ih (g := { g with count := g.count + 1 }) (by dsimp only; omega) hstart hskip
    · -- the block with the offset
      have hmul' : g.count * size = size * (offset / size) := by rw [heq, Nat.mul_comm]
      have hstart' : g.start.getD (offset - g.count * size) = offset - g.count * size := by
        rw [hstart]
        rfl
      rw [List.cons_append, getBlocks_copy (by omega) hlen heq.ge _ hstart']
      have hnext : g.count + 1 + blocks.length = count := by omega
      obtain ⟨hdst, hrest⟩ := getBlocks_rest data size count offset rest
        (g := ⟨g.count + 1, some 0,
          g.dst ++ ((blockBytes (data b) size).drop (offset - g.count * size)).take g.len,
          g.len - min (size - (offset - g.count * size)) g.len⟩)
        hnext rfl (by dsimp only; omega)
      rw [hdst, hrest, chainBytes_cons, List.drop_append_of_le_length
        (by rw [length_blockBytes]; omega), take_append_take, List.length_drop, length_blockBytes]
      dsimp only
      refine ⟨List.append_assoc .., ?_⟩
      simp only [List.length_append, List.length_take, List.length_drop, length_blockBytes]
      omega

end Get

/-! ### Filling a row -/

theorem room_mod {size m L : ℕ} (hsize : 0 < size) (hfits : L ≤ size * m) :
    (size * m - L) % size = if L % size = 0 then 0 else size - L % size := by
  have hdiv : size * (L / size) + L % size = L := Nat.div_add_mod L size
  have hmod : L % size < size := Nat.mod_lt L hsize
  split_ifs with h0
  · have hL : L = size * (L / size) := by omega
    rw [hL, ← Nat.mul_sub]
    exact Nat.mul_mod_right size _
  · have hlt : L / size < m := by
      by_contra hge
      have hmul : size * m ≤ size * (L / size) := Nat.mul_le_mul_left size (Nat.not_lt.mp hge)
      omega
    have hsub : size * m - L = size * (m - L / size - 1) + (size - L % size) := by
      have hm : m = m - L / size - 1 + L / size + 1 := by omega
      have hmul : size * m = size * (m - L / size - 1) + size * (L / size) + size := by
        conv_lhs => rw [hm]
        rw [Nat.mul_add, Nat.mul_add, Nat.mul_one]
      omega
    rw [hsub, Nat.mul_add_mod]
    exact Nat.mod_eq_of_lt (by omega)

theorem toUnsigned_natCast {k : ℕ} (h : k < 2 ^ 32) : toUnsigned (k : ℤ) = k :=
  Int.emod_eq_of_lt (Int.natCast_nonneg k) (by omega)

/-- The stored bytes `D` are the first ones of the row `R`, and there is room for the others. -/
structure Filling (first size : ℕ) (R : List ℕ) (D : List UInt8) (a : Appending) : Prop where
  blockSize : a.c.blockSize = size
  count : (a.c.block first).blockCount = R.length
  len : (a.c.block first).len = D.length
  stored : D <+: chainBytes a.data size R
  fits : D.length + a.src.length ≤ size * R.length
  small : size * R.length < 2 ^ 32

section Append

variable {first size b : ℕ} {R pre post rest : List ℕ} {D : List UInt8} {a : Appending}

theorem Filling.room_eq (h : Filling first size R D a) (hsize : 0 < size) (hlt : size < 2 ^ 32) :
    toUnsigned (a.c.blockSize * (a.c.block first).blockCount - (a.c.block first).len)
        % toUnsigned a.c.blockSize
      = ((if D.length % size = 0 then 0 else size - D.length % size : ℕ) : ℤ) := by
  have hfits : D.length ≤ size * R.length := Nat.le_of_add_right_le h.fits
  have hroom : (size : ℤ) * R.length - D.length = ((size * R.length - D.length : ℕ) : ℤ) := by
    rw [Nat.cast_sub hfits, Nat.cast_mul]
  have hsmall := h.small
  rw [h.blockSize, h.count, h.len, hroom, toUnsigned_natCast (by omega), toUnsigned_natCast hlt,
    ← Int.natCast_mod, room_mod hsize hfits]

theorem Filling.appendBlock_eq (h : Filling first size R D a) (hsize : 0 < size)
    (hlt : size < 2 ^ 32) (b : ℕ) :
    appendBlock first a b
      = { c := a.c.upd first fun x => { x with
            len := x.len + min (size - D.length % size) a.src.length }
          lastAppend := some b
          data := Function.update a.data b (writeCells (a.data b) (D.length % size)
            (a.src.take (min (size - D.length % size) a.src.length)))
          src := a.src.drop (min (size - D.length % size) a.src.length) } := by
  have hmod : D.length % size < size := Nat.mod_lt _ hsize
  rw [appendBlock, h.room_eq hsize hlt, h.blockSize]
  by_cases h0 : D.length % size = 0
  · have hmin : (min (size : ℤ) a.src.length).toNat = min size a.src.length := by omega
    simp only [h0, if_true, Nat.cast_zero, hmin, Int.toNat_zero, Nat.sub_zero]
  · have hne : ((size - D.length % size : ℕ) : ℤ) ≠ 0 := by omega
    have hmin : (min ((size - D.length % size : ℕ) : ℤ) a.src.length).toNat
        = min (size - D.length % size) a.src.length := by omega
    have hstart : ((size : ℤ) - (size - D.length % size : ℕ)).toNat = D.length % size := by omega
    simp only [h0, if_false, hne, hmin, hstart]

/-- **One block**: the next piece stands behind the stored bytes. -/
theorem Filling.appendBlock (h : Filling first size R D a) (hsize : 0 < size)
    (hlt : size < 2 ^ 32) (hR : R = pre ++ b :: post) (hnodup : R.Nodup)
    (hdiv : D.length / size = pre.length) :
    Filling first size R (D ++ a.src.take (size - D.length % size)) (appendBlock first a b) := by
  have hmod : D.length % size < size := Nat.mod_lt _ hsize
  have hlen : D.length = size * pre.length + D.length % size := by
    rw [← hdiv, Nat.div_add_mod]
  have hb : b ∉ pre := fun hmem => by
    rw [hR] at hnodup
    exact (List.disjoint_of_nodup_append hnodup) hmem List.mem_cons_self
  have htake : a.src.take (min (size - D.length % size) a.src.length)
      = a.src.take (size - D.length % size) := by
    rw [List.take_eq_take_iff]
    omega
  rw [h.appendBlock_eq hsize hlt, htake]
  refine ⟨h.blockSize, ?_, ?_, ?_, ?_, h.small⟩
  · rw [SharedContext.upd_block_self]
    exact h.count
  · rw [SharedContext.upd_block_self, List.length_append, List.length_take]
    exact congrArg (· + _) h.len
  · rw [hR]
    refine prefix_write (hR ▸ h.stored) hlen ?_ hb
    rw [List.length_take]
    omega
  · have hfits := h.fits
    simp only [List.length_append, List.length_take, List.length_drop]
    omega

structure RowFilled (first size : ℕ) (R : List ℕ) (D : List UInt8) (a a' : Appending) : Prop where
  c : a'.c = a.c.upd first fun x => { x with len := x.len + a.src.length }
  src : a'.src = []
  stored : D ++ a.src <+: chainBytes a'.data size R
  other : ∀ x, x ∉ R → a'.data x = a.data x
  lastAppend : a'.lastAppend = R[(D.length + a.src.length - 1) / size]?

variable (rest) in
/-- **The whole loop**, from the block that the next byte belongs to. -/
theorem Filling.appendBlocks (hsize : 0 < size) (hlt : size < 2 ^ 32) (hnodup : R.Nodup) :
    ∀ {blocks pre : List ℕ} {D : List UInt8} {a : Appending}, Filling first size R D a →
      R = pre ++ blocks → D.length / size = pre.length → a.src ≠ [] →
      RowFilled first size R D a (appendBlocks first (blocks ++ rest) a) := by
  intro blocks
  induction blocks with
  | nil =>
    intro pre D a h hR hdiv hsrc
    -- the row is full, but there are bytes left
    have hfits := h.fits
    have hpos : 0 < a.src.length := List.length_pos_iff.mpr hsrc
    rw [hR, List.append_nil, ← hdiv] at hfits
    have hle : size * (D.length / size) ≤ D.length := Nat.mul_div_le _ _
    omega
  | cons b blocks ih =>
    intro pre D a h hR hdiv hsrc
    have hnext := h.appendBlock hsize hlt hR hnodup hdiv
    have heq := h.appendBlock_eq hsize hlt b
    have hmod : D.length % size < size := Nat.mod_lt _ hsize
    have hsum : size * (D.length / size) + D.length % size = D.length := Nat.div_add_mod _ _
    have hpos : 0 < a.src.length := List.length_pos_iff.mpr hsrc
    have hb : b ∈ R := by
      rw [hR]
      exact List.mem_append_right pre List.mem_cons_self
    have hother : ∀ x, x ∉ R → (SmartHAProxy.appendBlock first a b).data x = a.data x := by
      intro x hx
      rw [heq]
      refine Function.update_of_ne ?_ _ _
      rintro rfl
      exact hx hb
    rw [List.cons_append, SmartHAProxy.appendBlocks, if_neg hsrc]
    rcases Nat.lt_or_ge (size - D.length % size) a.src.length with hmore | hlast
    · -- the block is full then, and the next one is the one behind it
      have hmin : min (size - D.length % size) a.src.length = size - D.length % size := by omega
      have hsrc' : (SmartHAProxy.appendBlock first a b).src
          = a.src.drop (size - D.length % size) := by rw [heq, hmin]
      have hlen' : (D ++ a.src.take (size - D.length % size)).length
          = size * (pre.length + 1) := by
        rw [List.length_append, List.length_take, Nat.min_eq_left hmore.le, Nat.mul_succ, ← hdiv]
        omega
      have hfill := ih hnext (by rw [hR, List.append_assoc]; rfl)
        (show _ = (pre ++ [b]).length by
          rw [hlen', Nat.mul_div_cancel_left _ hsize, List.length_append]
          rfl)
        (by
          rw [hsrc']
          intro hnil
          rw [List.drop_eq_nil_iff] at hnil
          omega)
      have htotal : (D ++ a.src.take (size - D.length % size)).length
          + (a.src.drop (size - D.length % size)).length = D.length + a.src.length := by
        rw [List.length_append, List.length_take, List.length_drop]
        omega
      refine ⟨?_, hfill.src, ?_, fun x hx => (hfill.other x hx).trans (hother x hx), ?_⟩
      · rw [hfill.c, hsrc', heq, hmin, List.length_drop]
        simp only [SharedContext.upd, Function.update_self, Function.update_idem]
        congr 3
        omega
      · have hstored := hfill.stored
        rwa [hsrc', List.append_assoc, List.take_append_drop] at hstored
      · rw [hfill.lastAppend, hsrc', htotal]
    · -- the last piece
      have hmin : min (size - D.length % size) a.src.length = a.src.length := by omega
      have htake : a.src.take (size - D.length % size) = a.src := List.take_of_length_le hlast
      have hnil : (SmartHAProxy.appendBlock first a b).src = [] := by
        rw [heq, hmin, List.drop_length]
      have hdone : SmartHAProxy.appendBlocks first (blocks ++ rest)
          (SmartHAProxy.appendBlock first a b) = SmartHAProxy.appendBlock first a b := by
        cases blocks ++ rest with
        | nil => rfl
        | cons x xs => exact if_pos hnil
      rw [hdone]
      refine ⟨?_, hnil, htake ▸ hnext.stored, hother, ?_⟩
      · rw [heq, hmin]
      · have hlastDiv : (D.length + a.src.length - 1) / size = pre.length := by
          rw [← hdiv]
          apply Nat.div_eq_of_lt_le
          · rw [Nat.mul_comm]
            omega
          · rw [Nat.succ_mul, Nat.mul_comm]
            omega
        rw [hlastDiv, heq, hR, List.getElem?_append_right (Nat.le_refl _), Nat.sub_self]
        rfl

end Append

end SmartHAProxy
