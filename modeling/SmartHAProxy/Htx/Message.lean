/-
HTX messages in their buffers (htx.c, haproxy/htx.h).

The array of a message has the payloads at its beginning and the descriptors of
the blocks at its end, the one of position 0 last.  Descriptors are kept apart
from the bytes here; `htx_pos_to_addr` says where they would begin, and payloads
have to end there.

Positions are natural numbers, -1 is `none`.  The subtractions of 32 bits wrap
where the code relies on their result (`sub32`).  `BUG_ON` does nothing unless
DEBUG_STRICT is set, and is left out.
-/
import SmartHAProxy.Http.Htx
import SmartHAProxy.Lib.Cells

namespace SmartHAProxy

/-- `htx_blk_type`, what is not in a request without body. -/
def htxBlkData : ℕ := 4
def htxBlkEot : ℕ := 6
def htxBlkUnused : ℕ := 15

/-- `uint32_t` subtraction. -/
def sub32 (a b : ℕ) : ℕ := (a + (2 ^ 32 - b % 2 ^ 32)) % 2 ^ 32

theorem sub32_eq {a b : ℕ} (h : b ≤ a) (ha : a < 2 ^ 32) : sub32 a b = a - b := by
  rw [sub32, Nat.mod_eq_of_lt (Nat.lt_of_le_of_lt h ha)]
  omega

/-! ### Descriptors -/

/-- `struct htx_blk`. -/
structure HtxDesc where
  addr : ℕ
  info : ℕ
  deriving DecidableEq, Repr

namespace HtxDesc

/-- `htx_get_blk_type`. -/
def getBlkType (d : HtxDesc) : ℕ := d.info / 2 ^ 28

def nameLen (d : HtxDesc) : ℕ := d.info % 2 ^ 8

def named (d : HtxDesc) : Bool := d.getBlkType == htxBlkHdr || d.getBlkType == htxBlkTlr

/-- The length of the value: 20 bits of it beside a name. -/
def valueLen (d : HtxDesc) : ℕ := if d.named then d.info / 2 ^ 8 % 2 ^ 20 else d.info % 2 ^ 28

/-- `htx_get_blksz`. -/
def getBlksz (d : HtxDesc) : ℕ :=
  if d.named then d.info % 2 ^ 8 + d.info / 2 ^ 8 % 2 ^ 20 else d.info % 2 ^ 28

def used (d : HtxDesc) : Bool := d.getBlkType != htxBlkUnused

/-- `htx_set_blk_value_len`; a sum of 32 bits, so that a length that is too large for its field
runs into the type. -/
def setBlkValueLen (d : HtxDesc) (vlen : ℕ) : HtxDesc :=
  if d.named then
    { d with info := (d.getBlkType * 2 ^ 28 + vlen * 2 ^ 8 + d.info % 2 ^ 8) % 2 ^ 32 }
  else if d.getBlkType = htxBlkReqSl ∨ d.getBlkType = htxBlkResSl ∨ d.getBlkType = htxBlkData then
    { d with info := (d.getBlkType * 2 ^ 28 + vlen) % 2 ^ 32 }
  else d

end HtxDesc

/-! ### Messages -/

/-- `struct htx`. -/
structure HtxBuf where
  size : ℕ
  data : ℕ
  tail : Option ℕ
  head : Option ℕ
  first : Option ℕ
  tailAddr : ℕ
  headAddr : ℕ
  endAddr : ℕ
  extra : ℕ
  flags : ℕ
  blk : ℕ → HtxDesc
  area : ℕ → UInt8

namespace HtxBuf

variable (htx : HtxBuf)

/-- `htx_reset`. -/
def reset : HtxBuf :=
  { htx with
    tail := none, head := none, first := none, data := 0, tailAddr := 0, headAddr := 0, endAddr := 0
    extra := 0, flags := 0 }

/-- `htx_pos_to_addr`. -/
def posToAddr (pos : ℕ) : ℕ := sub32 htx.size ((pos + 1) * 8)

/-- `htx_get_next`. -/
def getNext (pos : ℕ) : Option ℕ :=
  if htx.tail = none ∨ htx.tail = some pos then none else some (pos + 1)

/-- `tail + 1` -/
def tailSucc : ℕ := htx.tail.elim 0 (· + 1)

/-- `htx_nbblks`, with the unused blocks. -/
def nbblks : ℕ := htx.head.elim 0 fun head => htx.tailSucc - head

/-- `htx_meta_space`. -/
def metaSpace : ℕ := if htx.tail = none then 0 else htx.nbblks * 8

/-- `htx_used_space`. -/
def usedSpace : ℕ := htx.data + htx.metaSpace

/-- `htx_free_space`. -/
def freeSpace : ℕ := sub32 htx.size htx.usedSpace

/-- `htx_free_data_space`. -/
def freeDataSpace : ℕ := if htx.freeSpace < 8 then 0 else htx.freeSpace - 8

/-- The payload of the block at a position (`htx_get_blk_ptr`, `htx_get_blksz`). -/
def payload (pos : ℕ) : CStr := readAt htx.area (htx.blk pos).addr (htx.blk pos).getBlksz

/-- What the caller of a function that reserves a block stores in it. -/
def store (pos info : ℕ) (bs : CStr) : HtxBuf :=
  { htx with
    blk := Function.update htx.blk pos { htx.blk pos with info := info }
    area := writeAt htx.area (htx.blk pos).addr bs }

end HtxBuf

/-- What a trash chunk holds before it is used as an HTX message. -/
structure HtxChunk where
  blk : ℕ → HtxDesc
  area : ℕ → UInt8

/-- What `get_trash_chunk` returns may be different each time. -/
abbrev HtxTrash := HtxBuf → HtxChunk

/-- A position before the one that is counted, -1 for none. -/
def posBefore (n : ℕ) : Option ℕ := if n = 0 then none else some (n - 1)

namespace HtxBuf

/-! ### Defragmentation -/

/-- The local variables of `htx_defrag`: the message in the trash chunk (`blk`, `area`, and as
many bytes of data as `addr`), the new positions. -/
structure Defrag where
  blk : ℕ → HtxDesc
  area : ℕ → UInt8
  new : ℕ
  addr : ℕ
  first : Option ℕ
  blkpos : Option ℕ

/-- The loop of `htx_defrag`, for the `n` positions from `old` on. -/
def defragLoop (htx : HtxBuf) (blk : Option ℕ) (blkinfo : ℕ) : ℕ → ℕ → Defrag → Defrag
  | 0, _, st => st
  | n + 1, old, st =>
    let oldblk := htx.blk old
    if oldblk.used = false then defragLoop htx blk blkinfo n (old + 1) st
    else
      let newblk : HtxDesc :=
        ⟨st.addr, if blk = some old ∧ blkinfo ≠ 0 then blkinfo else oldblk.info⟩
      defragLoop htx blk blkinfo n (old + 1)
        { blk := Function.update st.blk st.new newblk
          area := writeAt st.area st.addr (htx.payload old)
          new := st.new + 1
          addr := st.addr + newblk.getBlksz
          first := if htx.first = some old then some st.new else st.first
          blkpos := if blk = some old then some st.new else st.blkpos }

/-- `htx_defrag`: the new position of `blk`, and the message. -/
def defrag (trash : HtxTrash) (htx : HtxBuf) (blk : Option ℕ) (blkinfo : ℕ) : Option ℕ × HtxBuf :=
  match htx.head with
  | none => (none, htx)
  | some head =>
    let st := defragLoop htx blk blkinfo htx.nbblks head
      ⟨(trash htx).blk, (trash htx).area, 0, 0, none, none⟩
    (st.blkpos,
      { htx with
        data := st.addr, first := st.first, head := some 0, tail := posBefore st.new
        headAddr := 0, endAddr := 0, tailAddr := st.addr, blk := st.blk, area := st.area })

/-- The loop of `htx_defrag_blks`, for the `n` positions from `pos` on. -/
def defragBlksLoop : ℕ → (pos new : ℕ) → HtxBuf → ℕ × HtxBuf
  | 0, _, new, htx => (new, htx)
  | n + 1, pos, new, htx =>
    if pos = new then defragBlksLoop n (pos + 1) (new + 1) htx
    else if (htx.blk pos).used = false then defragBlksLoop n (pos + 1) new htx
    else
      defragBlksLoop n (pos + 1) (new + 1)
        { htx with
          first := if htx.first = some pos then some new else htx.first
          blk := Function.update htx.blk new (htx.blk pos) }

/-- `htx_defrag_blks`. -/
def defragBlks (htx : HtxBuf) : HtxBuf :=
  let r := defragBlksLoop htx.nbblks (htx.head.getD 0) 0 htx
  { r.2 with head := some 0, tail := posBefore r.1 }

/-! ### Reservation -/

/-- A block of `blksz` bytes at the position `tail`. -/
def pushBlk (htx : HtxBuf) (tail blksz addr : ℕ) : HtxBuf :=
  { htx with
    tail := some tail
    data := htx.data + blksz
    first := if htx.first = none then some tail else htx.first
    blk := Function.update htx.blk tail { htx.blk tail with addr := addr } }

/-- "need to defragment the message before inserting upfront" -/
def reserveDefrag (trash : HtxTrash) (htx : HtxBuf) (blksz : ℕ) : ℕ × HtxBuf :=
  let htx := (defrag trash htx none 0).2
  let tail := htx.tailSucc
  (tail, { pushBlk htx tail blksz htx.tailAddr with tailAddr := htx.tailAddr + blksz })

/-- "try to find where to put its payload" -/
def reservePlace (trash : HtxTrash) (htx : HtxBuf) (tail blksz : ℕ) : ℕ × HtxBuf :=
  let headroom := sub32 htx.endAddr htx.headAddr
  let tailroom := if htx.headAddr = 0 then sub32 (htx.posToAddr tail) htx.tailAddr else 0
  if blksz ≤ tailroom then
    (tail, { pushBlk htx tail blksz htx.tailAddr with tailAddr := htx.tailAddr + blksz })
  else if blksz ≤ headroom then
    (tail, { pushBlk htx tail blksz htx.headAddr with headAddr := htx.headAddr + blksz })
  else reserveDefrag trash htx blksz

/-- `htx_reserve_nxblk`: the position of the block. -/
def reserveNxblk (trash : HtxTrash) (htx : HtxBuf) (blksz : ℕ) : Option (ℕ × HtxBuf) :=
  if blksz > htx.freeDataSpace then none
  else
    match htx.head with
    | none =>
      some (0, { htx with
        head := some 0, tail := some 0, first := some 0, data := blksz, tailAddr := blksz
        blk := Function.update htx.blk 0 { htx.blk 0 with addr := 0 } })
    | some head =>
      let tail := htx.tailSucc
      if htx.posToAddr tail ≥ htx.tailAddr then some (reservePlace trash htx tail blksz)
      else if head > 0 then
        let htx := defragBlks htx
        some (reservePlace trash htx htx.tailSucc blksz)
      else some (reserveDefrag trash htx blksz)

/-- `htx_add_blk`. -/
def addBlk (trash : HtxTrash) (htx : HtxBuf) (type blksz : ℕ) : Option (ℕ × HtxBuf) :=
  (reserveNxblk trash htx blksz).map fun r =>
    (r.1, { r.2 with
      blk := Function.update r.2.blk r.1 { r.2.blk r.1 with info := type * 2 ^ 28 } })

/-! ### Removal -/

/-- The rooms of a message: `tail_addr`, `head_addr` and `end_addr`. -/
structure Rooms where
  tailAddr : ℕ
  headAddr : ℕ
  endAddr : ℕ

/-- The end of `htx_remove_blk`: the rooms after the payload of `sz` bytes at `addr` was removed.
"If there is just one block in the HTX message, free space can be adjusted." -/
def roomsAfter (htx : HtxBuf) (addr sz : ℕ) : Rooms :=
  if htx.head = htx.tail then
    let lastblk := htx.blk (htx.tail.getD 0)
    ⟨lastblk.addr + htx.data, 0, lastblk.addr⟩
  else
    let tailAddr := if addr + sz = htx.tailAddr then addr else htx.tailAddr
    let headAddr :=
      if addr + sz ≠ htx.tailAddr ∧ addr + sz = htx.headAddr then addr else htx.headAddr
    if addr = htx.endAddr then
      if tailAddr = htx.endAddr then ⟨headAddr, 0, 0⟩ else ⟨tailAddr, headAddr, htx.endAddr + sz⟩
    else ⟨tailAddr, headAddr, htx.endAddr⟩

/-- "Mark the block as unused, decrement allocated size" -/
def markUnused (htx : HtxBuf) (pos : ℕ) : HtxBuf :=
  { htx with
    data := if (htx.blk pos).used then sub32 htx.data (htx.blk pos).getBlksz else htx.data
    blk :=
      if (htx.blk pos).used then
        Function.update htx.blk pos { htx.blk pos with info := htxBlkUnused * 2 ^ 28 }
      else htx.blk }

/-- `htx_remove_blk`: the position of the next block. -/
def removeBlk (htx : HtxBuf) (pos : ℕ) : Option ℕ × HtxBuf :=
  if htx.head = htx.tail then (none, { htx.reset with flags := htx.flags })
  else
    let next := if htx.head ≠ some pos ∧ htx.tail = some pos then none else some (pos + 1)
    let htx' : HtxBuf := { markUnused htx pos with
      head := if htx.head = some pos then some (pos + 1) else htx.head
      tail := if htx.head ≠ some pos ∧ htx.tail = some pos then posBefore pos else htx.tail
      first := if htx.first = some pos then next else htx.first }
    let rooms := roomsAfter htx' (htx.blk pos).addr (htx.blk pos).getBlksz
    (next, { htx' with
      tailAddr := rooms.tailAddr, headAddr := rooms.headAddr, endAddr := rooms.endAddr })

/-- The loops `while (blk) blk = htx_remove_blk(htx, blk)`, as far as `stop`; `fuel` is above the
number of blocks. -/
def removeUntil (stop : Option ℕ) : (fuel : ℕ) → Option ℕ → HtxBuf → HtxBuf
  | 0, _, htx => htx
  | _ + 1, none, htx => htx
  | fuel + 1, some pos, htx =>
    if some pos = stop then htx
    else removeUntil stop fuel (htx.removeBlk pos).1 (htx.removeBlk pos).2

/-- `htx_change_blk_value_len`. -/
def changeBlkValueLen (htx : HtxBuf) (pos newlen : ℕ) : HtxBuf :=
  let d := htx.blk pos
  let delta : ℤ := newlen - d.valueLen
  let info :=
    if d.named then (d.getBlkType * 2 ^ 28 + newlen * 2 ^ 8 + d.info % 2 ^ 8) % 2 ^ 32
    else (d.getBlkType * 2 ^ 28 + newlen) % 2 ^ 32
  { htx with
    blk := Function.update htx.blk pos { d with info := info }
    data := (htx.data + delta).toNat
    tailAddr :=
      if d.addr + d.getBlksz = htx.tailAddr then (htx.tailAddr + delta).toNat else htx.tailAddr
    headAddr :=
      if d.addr + d.getBlksz ≠ htx.tailAddr ∧ d.addr + d.getBlksz = htx.headAddr then
        (htx.headAddr + delta).toNat
      else htx.headAddr }

/-- `htx_cut_data_blk`. -/
def cutDataBlk (htx : HtxBuf) (pos n : ℕ) : HtxBuf :=
  let d := htx.blk pos
  { htx with
    endAddr := if d.addr = htx.endAddr then htx.endAddr + n else htx.endAddr
    blk := Function.update htx.blk pos ⟨d.addr + n, d.info - n⟩
    data := sub32 htx.data n }

/-- The loop of `htx_find_offset`, for `n` positions at most. -/
def findOffsetLoop (htx : HtxBuf) : ℕ → Option ℕ → ℕ → Option ℕ × ℕ
  | 0, blk, offset => (blk, offset)
  | _ + 1, none, offset => (none, offset)
  | n + 1, some pos, offset =>
    if offset = 0 then (some pos, 0)
    else if offset < (htx.blk pos).getBlksz then (some pos, offset)
    else findOffsetLoop htx n (htx.getNext pos) (offset - (htx.blk pos).getBlksz)

/-- `htx_find_offset`: a block and the offset in it. -/
def findOffset (htx : HtxBuf) (offset : ℕ) : Option ℕ × ℕ :=
  if offset ≥ htx.data then (none, 0) else findOffsetLoop htx htx.nbblks htx.head offset

/-- `htx_truncate`. -/
def truncate (htx : HtxBuf) (offset : ℕ) : HtxBuf :=
  match findOffset htx offset with
  | (none, _) => htx
  | (some pos, ret) =>
    if ret ≠ 0 ∧ (htx.blk pos).getBlkType = htxBlkData then
      let htx := changeBlkValueLen htx pos ret
      removeUntil none (htx.nbblks + 1) (htx.getNext pos) htx
    else removeUntil none (htx.nbblks + 1) (some pos) htx

/-! ### Appending -/

/-- The loop of `htx_append_msg`, for the `n` positions of `src` from `pos` on. -/
def appendLoop (trash : HtxTrash) (src : HtxBuf) : ℕ → ℕ → HtxBuf → Bool × HtxBuf
  | 0, _, dst => (true, dst)
  | n + 1, pos, dst =>
    let blk := src.blk pos
    if blk.used = false then appendLoop trash src n (pos + 1) dst
    else
      match addBlk trash dst blk.getBlkType blk.getBlksz with
      | none => (false, dst)
      | some (newblk, dst) =>
        appendLoop trash src n (pos + 1) (dst.store newblk blk.info (src.payload pos))

/-- `htx_append_msg`. -/
def appendMsg (trash : HtxTrash) (dst src : HtxBuf) : Bool × HtxBuf :=
  let offset := dst.data
  match appendLoop trash src src.nbblks (src.head.getD 0) dst with
  | (true, dst) => (true, dst)
  | (false, dst) => (false, dst.truncate offset)

end HtxBuf

end SmartHAProxy
