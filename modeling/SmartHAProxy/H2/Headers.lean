/-
Header blocks of an HTTP/2 connection, as `h2c_decode_headers` (mux_h2.c) takes them out of
the demux buffer.

A block that does not fit in one HEADERS frame goes on in CONTINUATION frames.  They are
folded into the first frame inside the ring buffer: the payload of each is moved over the
padding and the frame header in front of it, and what becomes free is a hole between the
folded frame and the rest of the data.  The function leaves whenever bytes are missing and
is called again when more have come.

What is called on the way answers through `H2Answers`.  Lengths are natural numbers; none of
them exceeds twice the size of the buffer.
-/
import SmartHAProxy.Buf.Ring
import SmartHAProxy.Lib.Codec

namespace SmartHAProxy

/-! ### Frame headers -/

/-- `readv_n64`, the second segment being the start of the area. -/
def readvN64 (area : List UInt8) (p1 s1 : ℕ) : Except Fault ℕ := do
  let first ← memRead area p1 (min s1 8)
  let second ← memRead area 0 (8 - min s1 8)
  pure (beFold 0 (first ++ second))

def h2GetN64 (b : Buffer) (o : ℕ) : Except Fault ℕ :=
  readvN64 b.area (bPeekOfs b o) (bSize b - bPeekOfs b o)

/-- `struct h2_fh`. -/
structure H2Fh where
  len : ℕ
  sid : ℕ
  ft : UInt8
  ff : UInt8
  deriving DecidableEq, Repr

/-- The fields of a header whose first byte is `b0` and whose other ones make up `w`. -/
def H2Fh.ofWord (b0 w : ℕ) : H2Fh where
  len := b0 * 2 ^ 16 + w / 2 ^ 48
  sid := w % 2 ^ 31
  ft := UInt8.ofNat (w / 2 ^ 40)
  ff := UInt8.ofNat (w / 2 ^ 32)

def h2PeekFrameHdr (b : Buffer) (o : ℕ) : Except Fault (Option H2Fh) :=
  if b.data < o + 9 then pure none
  else do
    let w ← h2GetN64 b (o + 1)
    let b0 ← memRead b.area (bPeekOfs b o) 1
    pure (some (H2Fh.ofWord (beFold 0 b0) w))

def h2FtContinuation : UInt8 := 0x09
def h2FHeadersEndHeaders : UInt8 := 0x04
def h2FHeadersPriority : UInt8 := 0x20

/-! ### The demultiplexer -/

/-- `enum h2_err`, as far as header blocks cause them. -/
inductive H2BlockErr
  | protocol
  | internal
  | frameSize
  | compression
  deriving DecidableEq, Repr

/-- `enum h2_cs`, the error with its code. -/
inductive H2Cs
  | frameH
  | frameP
  | error (errcode : H2BlockErr)
  deriving DecidableEq, Repr

/-- `struct h2c`, as far as header blocks are concerned; `demSalloc` and `demSfull` are
H2_CF_DEM_SALLOC and H2_CF_DEM_SFULL. -/
structure H2Demux where
  dbuf : Buffer
  dsi : ℕ
  dfl : ℕ
  dpl : ℕ
  dff : UInt8
  st0 : H2Cs
  demSalloc : Bool
  demSfull : Bool
  deriving DecidableEq, Repr

/-- What the functions answer that `h2c_decode_headers` calls: the chunk of
`alloc_trash_chunk`, whether `h2_get_buf` has a buffer and whether it is empty, whether
`hpack_decode_frame` decodes the bytes, and whether a message is made of the headers. -/
structure H2Answers where
  chunk : Option (List UInt8)
  rxbuf : Bool
  rxEmpty : Bool
  hpack : List UInt8 → Bool
  message : Bool

/-- What a call returns, and what it has given to `hpack_decode_frame`. -/
structure H2Decoded where
  ret : ℤ
  fed : Option (List UInt8)
  deriving DecidableEq, Repr

namespace H2Demux

/-- `h2c_error`. -/
def error (c : H2Demux) (err : H2BlockErr) : H2Demux := { c with st0 := .error err }

/-! ### Folding -/

/-- How the loop at `next_frame` is left: to `leave`, to `fail`, or with a whole block. -/
inductive Next
  | leave
  | fail
  | whole
  deriving DecidableEq, Repr

/-- The loop at `next_frame`.  Each turn lengthens the hole by nine bytes, so that there are
no more turns than bytes. -/
def nextFrame (bufsize : ℕ) : ℕ → H2Demux → ℕ → Except Fault (H2Demux × ℕ × Next)
  | 0, c, hole => pure (c, hole, .leave)
  | fuel + 1, c, hole =>
    if c.dbuf.data - hole < c.dfl then
      -- incomplete input frame
      pure (c, hole, .leave)
    else if c.dff &&& h2FHeadersEndHeaders ≠ 0 then pure (c, hole, .whole)
    else do
      match ← h2PeekFrameHdr c.dbuf (c.dfl + hole) with
      | none => pure (c, hole, .leave)
      | some hdr =>
        if hdr.ft ≠ h2FtContinuation then pure (c.error .protocol, hole, .fail)
        else if hdr.sid ≠ c.dsi then pure (c.error .protocol, hole, .fail)
        else if bufsize < hdr.len then pure (c.error .frameSize, hole, .fail)
        else do
          let clen := min (c.dbuf.data - (c.dfl + hole + 9)) hdr.len
          let dbuf ← bMove c.dbuf (bPeekOfs c.dbuf (c.dfl + hole + 9)) clen
            (-((c.dpl + hole + 9 : ℕ) : ℤ))
          nextFrame bufsize fuel
            { c with
              dbuf := dbuf
              dff := c.dff ||| (hdr.ff &&& h2FHeadersEndHeaders)
              dfl := c.dfl + hdr.len - c.dpl
              dpl := 0 }
            (hole + (c.dpl + 9))

/-! ### Decoding -/

/-- `hdrs`: the memory from the head of the buffer on, or the copy of a block that wraps. -/
def hdrs (c : H2Demux) (chunk : Option (List UInt8)) : Except Fault (Option (List UInt8)) :=
  let wrap := bSize c.dbuf - c.dbuf.head
  if wrap < c.dfl then
    match chunk with
    | none => pure none
    | some chunk => do
      let chunk ← memcpy chunk 0 c.dbuf.area c.dbuf.head wrap
      let chunk ← memcpy chunk wrap c.dbuf.area 0 (c.dfl - wrap)
      pure (some chunk)
  else pure (some (c.dbuf.area.drop c.dbuf.head))

/-- The length of the priority fields, if there are any, or the error they cause. -/
def skipPriority (c : H2Demux) (hdrs : List UInt8) (flen : ℕ) :
    Except Fault (Except H2BlockErr ℕ) :=
  if c.dff &&& h2FHeadersPriority = 0 then pure (.ok 0)
  else do
    let dep ← memRead hdrs 0 4
    if beFold 0 dep = c.dsi then pure (.error .protocol)
    else if flen < 5 then pure (.error .frameSize)
    else pure (.ok 5)

/-- The headers of a whole block: the state, the hole and the outcome at `leave`. -/
def decodeWhole (ans : H2Answers) (c : H2Demux) (hole : ℕ) :
    Except Fault (H2Demux × ℕ × H2Decoded) := do
  let flen := c.dfl - c.dpl
  match ← c.hdrs ans.chunk with
  | none => pure (c.error .internal, hole, ⟨-1, none⟩)
  | some hdrs =>
    match ← c.skipPriority hdrs flen with
    | .error err => pure (c.error err, hole, ⟨-1, none⟩)
    | .ok skip =>
      if ans.rxbuf = false then pure ({ c with demSalloc := true }, hole, ⟨0, none⟩)
      else if ans.rxEmpty = false then pure ({ c with demSfull := true }, hole, ⟨0, none⟩)
      else do
        let fed ← memRead hdrs skip (flen - skip)
        if ans.hpack fed = false then pure (c.error .compression, hole, ⟨-1, some fed⟩)
        else
          pure ({ c with dbuf := bDel c.dbuf (c.dfl + hole), dfl := 0, st0 := .frameH }, 0,
            ⟨if ans.message then 1 else -1, some fed⟩)

/-- The hole is closed at `leave`. -/
def closeHole (b : Buffer) (dfl hole : ℕ) : Except Fault Buffer :=
  if hole = 0 then pure b
  else if dfl + hole < b.data then do
    let b ← bMove b (bPeekOfs b (dfl + hole)) (b.data - (dfl + hole)) (-(hole : ℤ))
    pure { b with data := b.data - hole }
  else pure { b with data := b.data - hole }

/-- The end of the function, from `leave` on. -/
def leave (c : H2Demux) (hole : ℕ) (r : H2Decoded) : Except Fault (H2Demux × H2Decoded) := do
  let dbuf ← closeHole c.dbuf c.dfl hole
  let c := { c with dbuf := dbuf }
  if bRoom c.dbuf = 0 ∧ c.dfl ≠ 0 then
    -- too large frames
    pure (c.error .internal, { r with ret := -1 })
  else pure (c, r)

/-- `h2c_decode_headers`. -/
def decodeHeaders (bufsize : ℕ) (ans : H2Answers) (c : H2Demux) :
    Except Fault (H2Demux × H2Decoded) := do
  match ← nextFrame bufsize (c.dbuf.data + 1) c 0 with
  | (c, hole, .leave) => c.leave hole ⟨0, none⟩
  | (c, hole, .fail) => c.leave hole ⟨-1, none⟩
  | (c, hole, .whole) => do
    let (c, hole, r) ← decodeWhole ans c hole
    c.leave hole r

/-! ### Reception -/

/-- A piece of data that is received, and the answers in the call that follows. -/
abbrev Call := List UInt8 × H2Answers

/-- A piece is appended to the demux buffer, and the function is called. -/
def receive (bufsize : ℕ) (c : H2Demux) (call : Call) : Except Fault (H2Demux × H2Decoded) := do
  let (dbuf, _) ← bPutblk c.dbuf call.1
  decodeHeaders bufsize call.2 { c with dbuf := dbuf }

/-- Pieces are received until the function returns something other than 0: the outcome, and
the pieces that are left. -/
def run (bufsize : ℕ) : H2Demux → List Call → Except Fault (H2Demux × H2Decoded × List Call)
  | c, [] => pure (c, ⟨0, none⟩, [])
  | c, call :: calls => do
    let (c, r) ← c.receive bufsize call
    if r.ret = 0 then run bufsize c calls else pure (c, r, calls)

end H2Demux

end SmartHAProxy
