/-
The shared cache memory (shctx.c, haproxy/shctx.h).

The memory is cut into blocks.  An object is stored in a row, a number of blocks
that follow each other in one of two lists: `hot` has the rows in use, `avail`
the rows that may be given up and the free blocks.  A row is known by its first
block, which holds its number of blocks, its last block, the amount of data and
the number of references.

Blocks are numbers and a list is the list of its blocks.  A block is in one list
at most, so `LIST_DELETE` takes it out of both, and `LIST_INSERT` behind another
block puts it into the list of that one.

Neither `last_append` nor the data has an influence on the lists: both are in
`Shctx/Data.lean`.
-/
import Mathlib.Data.UInt
import SmartHAProxy.Lib.CString
import SmartHAProxy.Lib.Run

namespace SmartHAProxy

/-- `struct shared_block`. -/
structure SharedBlock where
  len : ℕ
  blockCount : ℕ
  refcount : UInt32
  lastReserved : Option ℕ
  deriving DecidableEq, Repr

/-- `struct shared_context`. -/
structure SharedContext where
  avail : List ℕ
  hot : List ℕ
  nbav : ℕ
  maxObjSize : ℕ
  /-- a `short int` -/
  blockSize : ℤ
  block : ℕ → SharedBlock

namespace SharedContext

def upd (c : SharedContext) (b : ℕ) (f : SharedBlock → SharedBlock) : SharedContext :=
  { c with block := Function.update c.block b (f (c.block b)) }

variable (c : SharedContext) (b : ℕ) (f : SharedBlock → SharedBlock)

@[simp] theorem upd_block_self : (c.upd b f).block b = f (c.block b) := Function.update_self ..

theorem upd_block_of_ne {b' : ℕ} (h : b' ≠ b) : (c.upd b f).block b' = c.block b' :=
  Function.update_of_ne h ..

end SharedContext

/-! ### Lists -/

/-- `LIST_INSERT (&head->list, &s->list)`. -/
def listInsert (head s : ℕ) : List ℕ → List ℕ
  | [] => []
  | x :: xs => if x = head then x :: s :: xs else x :: listInsert head s xs

/-- `shctx_block_append_hot`: `s` behind `head`, "which is not necessarily the head
of a list". -/
def shctxBlockAppendHot (c : SharedContext) (head s : ℕ) : SharedContext :=
  { c with
    nbav := c.nbav - 1
    hot := listInsert head s (c.hot.erase s)
    avail := listInsert head s (c.avail.erase s) }

def shctxBlockSetHot (c : SharedContext) (s : ℕ) : SharedContext :=
  { c with nbav := c.nbav - 1, hot := c.hot.erase s ++ [s], avail := c.avail.erase s }

def shctxBlockSetAvail (c : SharedContext) (s : ℕ) : SharedContext :=
  { c with nbav := c.nbav + 1, hot := c.hot.erase s, avail := c.avail.erase s ++ [s] }

/-- The blocks that `list_for_each_entry_safe_from` visits, from `first` on in the
list, until `count >= block_count`; the test comes after the first block. -/
def listFrom (xs : List ℕ) (first blockCount : ℕ) : List ℕ :=
  (xs.dropWhile (· ≠ first)).take (max 1 blockCount)

/-! ### References -/

/-- `shctx_row_inc_hot`.  `refcount` is unsigned. -/
def shctxRowIncHot (c : SharedContext) (first : ℕ) : SharedContext :=
  let c :=
    if (c.block first).refcount = 0 then
      (listFrom c.avail first (c.block first).blockCount).foldl shctxBlockSetHot c
    else c
  c.upd first fun b => { b with refcount := b.refcount + 1 }

def shctxRowDecHot (c : SharedContext) (first : ℕ) : SharedContext :=
  let c := c.upd first fun b => { b with refcount := b.refcount - 1 }
  if (c.block first).refcount = 0 then
    (listFrom c.hot first (c.block first).blockCount).foldl shctxBlockSetAvail c
  else c

/-- `shctx_row_data_append`, what it does to the length of the row. -/
def shctxRowDataAppend (c : SharedContext) (first len : ℕ) : SharedContext :=
  if (len : ℤ) > (c.block first).blockCount * c.blockSize - (c.block first).len then c
  else c.upd first fun b => { b with len := b.len + len }

/-! ### `shctx_row_reserve_hot` -/

structure Reserving where
  c : SharedContext
  dataLen : ℤ
  enough : Bool
  freed : ℕ
  last : Option ℕ
  ret : Option ℕ

def reserveBlock (r : Reserving) (block : ℕ) : Reserving :=
  let c := r.c.upd block fun b => { b with blockCount := 1, len := 0 }
  let freed := r.freed + 1
  let dataLen := r.dataLen - c.blockSize
  if dataLen > 0 ∨ r.enough = false then
    let c := match r.last with
      | some last => shctxBlockAppendHot c last block
      | none => shctxBlockSetHot c block
    let last := r.last.map fun _ => block
    if dataLen ≤ 0 then
      let c := match r.ret with
        | some ret => c.upd ret fun b =>
          { b with blockCount := freed, refcount := 1, lastReserved := some block }
        | none => c
      ⟨c, dataLen, true, freed, last, r.ret⟩
    else ⟨c, dataLen, r.enough, freed, last, r.ret⟩
  else ⟨c, dataLen, r.enough, freed, r.last, r.ret⟩

/-- The outer loop.  Each turn takes the first row of `avail`, at least one block,
or is the last one; so as many turns as there are blocks are enough. -/
def reserveLoop : ℕ → Reserving → Reserving
  | 0, r => r
  | fuel + 1, r =>
    if r.enough then r
    else match r.c.avail with
      | [] => r
      | next :: _ =>
        let r := { r with ret := r.ret.or (some next) }
        reserveLoop fuel
          ((r.c.avail.take (max 1 (r.c.block next).blockCount)).foldl reserveBlock r)

/-- An `int` seen as an `unsigned int`. -/
def toUnsigned (x : ℤ) : ℤ := x % 2 ^ 32

/-- The tests before the loop: the blocks that are available, and the size limit. -/
def reserveRefused (c : SharedContext) (first : Option ℕ) (dataLen : ℤ) : Bool :=
  toUnsigned dataLen > toUnsigned (c.nbav * c.blockSize) ||
    (c.maxObjSize > 0 &&
      match first with
      | some first => toUnsigned ((c.block first).len + dataLen) > c.maxObjSize
      | none => toUnsigned dataLen > c.maxObjSize)

/-- The end of `shctx_row_reserve_hot` for a row that was extended. -/
def reserveExtend (c : SharedContext) (first ret : ℕ) : SharedContext :=
  let taken := c.block ret
  let c := c.upd first fun b =>
    { b with blockCount := b.blockCount + taken.blockCount, lastReserved := taken.lastReserved }
  c.upd ret fun b => { b with lastReserved := none, blockCount := 1, refcount := 0 }

/-- What a call leaves: the context, the block that is returned, and the number of
blocks it has visited, all at the beginning of `avail`. -/
structure Reserved where
  c : SharedContext
  ret : Option ℕ
  freed : ℕ

/-- The room in the blocks of a row, as the `int` that it is assigned to. -/
def rowRemain (c : SharedContext) (first : ℕ) : ℤ :=
  Int.bmod (c.blockSize * (c.block first).blockCount - (c.block first).len) (2 ^ 32)

/-- `shctx_row_reserve_hot`.  If the loop found no block, an extension reads
through a NULL pointer. -/
def shctxRowReserveHot (c : SharedContext) (first : Option ℕ) (dataLen : ℤ) :
    Except Fault Reserved :=
  if reserveRefused c first dataLen then .ok ⟨c, none, 0⟩
  else match first with
    | none =>
      let r := reserveLoop c.avail.length ⟨c, dataLen, false, 0, none, none⟩
      .ok ⟨r.c, r.ret, r.freed⟩
    | some first =>
      let last := (c.block first).lastReserved
      let remain := rowRemain c first
      if remain ≠ 0 ∧ remain ≥ dataLen then .ok ⟨c, last.or (some first), 0⟩
      else
        let r := reserveLoop c.avail.length ⟨c, dataLen - remain, false, 0, last, none⟩
        match r.ret with
        | some ret => .ok ⟨reserveExtend r.c first ret, some first, r.freed⟩
        | none => .error .nullPointer

/-! ### `shctx_init` -/

/-- The block size is rounded up to the size of a pointer and stored in a `short`. -/
def shctxBlockSize (blocksize : ℤ) : ℤ := Int.bmod ((blocksize + 7) / 8 * 8) (2 ^ 16)

/-- `shctx_init`.  `maxobjsz` is 0 in place of -1. -/
def shctxInit (maxblocks : ℕ) (blocksize : ℤ) (maxobjsz : ℕ) : SharedContext where
  avail := List.range maxblocks
  hot := []
  nbav := maxblocks
  maxObjSize := maxobjsz
  blockSize := shctxBlockSize blocksize
  block := fun _ => ⟨0, 1, 0, none⟩

end SmartHAProxy
