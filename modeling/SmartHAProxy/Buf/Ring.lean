/-
The buffers of haproxy/buf.h.

A buffer is a storage area that is used as a ring: `data` bytes from position
`head` on, wrapping at the end of the area.  Every operation splits its copies
into blocks that do not wrap, each by its own arithmetic.

Offsets are natural numbers.  An area has less than 2^63 bytes, so that the
sums of two offsets that occur here do not wrap around in a `size_t`; where the
code looks at the sign of a difference (`b_contig_space`) it is an integer.

The temporary area of the two realign functions is the argument `swap`.
-/
import SmartHAProxy.Lib.Memory

namespace SmartHAProxy

/-- `struct buffer`; `size` is the length of the area. -/
structure Buffer where
  area : List UInt8
  head : ℕ
  data : ℕ
  deriving DecidableEq, Repr

/-- `b_size`, which is also the offset of `b_wrap`. -/
def bSize (b : Buffer) : ℕ := b.area.length

def bRoom (b : Buffer) : ℕ := bSize b - b.data

def bPeekOfs (b : Buffer) (ofs : ℕ) : ℕ :=
  if b.head + ofs ≥ bSize b then b.head + ofs - bSize b else b.head + ofs

def bTailOfs (b : Buffer) : ℕ := bPeekOfs b b.data

def bContigData (b : Buffer) (start : ℕ) : ℕ := min (bSize b - bPeekOfs b start) (b.data - start)

def bContigSpace (b : Buffer) : ℕ :=
  let right : ℤ := b.head
  let left : ℤ := bSize b - (right + b.data)
  if left ≤ 0 then (left + right).toNat else left.toNat

/-! ### Reading and deleting -/

/-- `b_getblk`: the return value and the bytes that are delivered. -/
def bGetblk (b : Buffer) (len offset : ℕ) : Except Fault (ℕ × List UInt8) :=
  if len + offset > b.data then .ok (0, [])
  else
    let firstblock := bSize b - b.head
    if firstblock > offset then
      if firstblock ≥ len + offset then do
        let blk ← memRead b.area (b.head + offset) len
        pure (len, blk)
      else do
        let blk₁ ← memRead b.area (b.head + offset) (firstblock - offset)
        let blk₂ ← memRead b.area 0 (len - (firstblock - offset))
        pure (len, blk₁ ++ blk₂)
    else do
      let blk ← memRead b.area (offset - firstblock) len
      pure (len, blk)

def bDel (b : Buffer) (del : ℕ) : Buffer :=
  let head := b.head + del
  { b with data := b.data - del, head := if head ≥ bSize b then head - bSize b else head }

/-! ### Realigning -/

def bSlowRealign (b : Buffer) (swap : List UInt8) (output : ℕ) : Except Fault Buffer := do
  -- process output data in two steps to cover wrapping
  let wraps := output > bSize b - b.head
  let block2 := if wraps then bSize b - b.head else 0
  let block1 := if wraps then output - block2 else output
  let swap ← memcpy swap (bSize b - output) b.area b.head block1
  let swap ← memcpy swap (bSize b - block2) b.area 0 block2
  -- process input data in two steps to cover wrapping
  let input := b.data - output
  let wraps := input > bTailOfs b
  let block2 := if wraps then bTailOfs b else 0
  let block1 := if wraps then input - block2 else input
  let swap ← memcpy swap 0 b.area (bPeekOfs b output) block1
  let swap ← memcpy swap block1 b.area 0 block2
  -- reinject changes into the buffer
  let area ← memcpy b.area 0 swap 0 (b.data - output)
  let area ← memcpy area (bSize b - output) swap (bSize b - output) output
  pure { b with area := area, head := if output ≠ 0 then bSize b - output else 0 }

def bSlowRealignOfs (b : Buffer) (swap : List UInt8) (ofs : ℕ) : Except Fault Buffer := do
  let wraps := b.head + b.data ≥ bSize b
  let block2 := if wraps then bTailOfs b else 0
  let block1 := if wraps then b.data - block2 else b.data
  let swap ← memcpy swap 0 b.area b.head block1
  let swap ← memcpy swap block1 b.area 0 block2
  let wraps := b.data > bSize b - ofs
  let block1 := if wraps then bSize b - ofs else b.data
  let block2 := if wraps then b.data - block1 else 0
  let area ← memcpy b.area ofs swap 0 block1
  let area ← memcpy area 0 swap block1 block2
  pure { b with area := area, head := ofs }

/-! ### Appending -/

def bPutchr (b : Buffer) (c : UInt8) : Except Fault Buffer :=
  if bRoom b = 0 then pure b
  else do
    let area ← memWrite b.area (bTailOfs b) [c]
    pure { b with area := area, data := b.data + 1 }

/-- `__b_putblk`, "without checking for free space". -/
def bPutblkUnchecked (b : Buffer) (blk : List UInt8) : Except Fault Buffer := do
  let half := min (bContigSpace b) blk.length
  let area ← memWrite b.area (bTailOfs b) (blk.take half)
  let area ← memWrite area (bPeekOfs b (b.data + half)) (blk.drop half)
  pure { b with area := area, data := b.data + blk.length }

def bPutblk (b : Buffer) (blk : List UInt8) : Except Fault (Buffer × ℕ) :=
  let len := min blk.length (bRoom b)
  if len = 0 then pure (b, len)
  else do
    let b ← bPutblkUnchecked b (blk.take len)
    pure (b, len)

/-- One of the two copies of `b_xfer`, if it has any bytes. -/
def bXferBlock (dst src : Buffer) (ofs len : ℕ) : Except Fault Buffer :=
  if len = 0 then pure dst
  else do
    let blk ← memRead src.area ofs len
    bPutblkUnchecked dst blk

/-- `b_xfer`: the destination, the source and the return value. -/
def bXfer (dst src : Buffer) (count : ℕ) : Except Fault (Buffer × Buffer × ℕ) :=
  if count = 0 ∨ src.data = 0 then pure (dst, src, 0)
  else if src.data ≤ count ∧ dst.data = 0 then
    -- zero copy is possible by just swapping buffers
    pure (src, dst, src.data)
  else do
    let ret := min src.data count
    let block1 := min (bContigData src 0) ret
    let block2 := ret - block1
    let dst ← bXferBlock dst src src.head block1
    let dst ← bXferBlock dst src (bPeekOfs src block1) block2
    pure (dst, bDel src ret, ret)

/-! ### Inserting -/

/-- The loop of `b_move` that copies from left to right, for a negative shift.
Each turn copies at least one byte, so `len` turns are enough. -/
def bMoveDown (size : ℕ) : ℕ → List UInt8 → ℕ → ℕ → ℕ → Except Fault (List UInt8)
  | 0, area, _, _, _ => .ok area
  | fuel + 1, area, src, dst, len =>
    if len = 0 then .ok area
    else do
      let cnt := min (min len (size - src)) (size - dst)
      let area ← memcpy area dst area src cnt
      let dst := if dst + cnt ≥ size then dst + cnt - size else dst + cnt
      let src := if src + cnt ≥ size then src + cnt - size else src + cnt
      bMoveDown size fuel area src dst (len - cnt)

/-- The loop of `b_move` that copies from right to left, for a positive shift. -/
def bMoveUp (size : ℕ) : ℕ → List UInt8 → ℕ → ℕ → ℕ → Except Fault (List UInt8)
  | 0, area, _, _, _ => .ok area
  | fuel + 1, area, src, dst, len =>
    if len = 0 then .ok area
    else do
      let dstEnd := if dst + len > size then dst + len - size else dst + len
      let srcEnd := if src + len > size then src + len - size else src + len
      let cnt := min (min len dstEnd) srcEnd
      let area ← memcpy area (dstEnd - cnt) area (srcEnd - cnt) cnt
      bMoveUp size fuel area src dst (len - cnt)

def bMove (b : Buffer) (src len : ℕ) (shift : ℤ) : Except Fault Buffer := do
  let size := bSize b
  let dst := (src + size + shift).toNat
  let dst := if dst ≥ size then dst - size else dst
  let area ←
    if shift < 0 then bMoveDown size len b.area src dst len
    else if shift > 0 then bMoveUp size len b.area src dst len
    else pure b.area
  pure { b with area := area }

def bInsertBlk (b : Buffer) (off : ℕ) (blk : List UInt8) : Except Fault (Buffer × ℕ) :=
  if blk.length = 0 ∨ blk.length > bRoom b then pure (b, 0)
  else
    let pos := bPeekOfs b off
    if pos = bTailOfs b then do
      let b ← bPutblkUnchecked b blk
      pure (b, blk.length)
    else do
      let delta := b.data - off
      -- first, protect the end of the buffer
      let b ← bMove b pos delta blk.length
      -- change the amount of data in the buffer during the copy
      let b ← bPutblkUnchecked { b with data := b.data - delta } blk
      pure ({ b with data := b.data + delta }, blk.length)

end SmartHAProxy
