/-
Typed data of the stream processing offload protocol (include/haproxy/spoe.h).

A typed data is a byte with the type, and what the type calls for: nothing, an
integer of variable length, four or sixteen bytes of an address, or a length and
as many bytes.  Only strings and binaries may be cut: what is left is sent by the
next call, from an offset that is kept in the context of the sample.

The output of an encoding call is what it writes into a buffer that has `room`
bytes left.  Counts that the code keeps in an `int` are taken modulo `2 ^ 32` with
a sign; a copy of a negative number of bytes does not return.  The input of a
decoding call is the list of bytes from the address `buf` to `end`, and pointers
are numbers modulo `2 ^ 64`.
-/
import SmartHAProxy.Http.Basic
import SmartHAProxy.Lib.Varint

namespace SmartHAProxy

/-! ### Samples -/

/-- A string in memory: its length is a `size_t`. -/
structure SmpBuf where
  area : List UInt8
  length_lt : area.length < 2 ^ 64

/-- The types of samples that are told apart; a boolean is kept in `sint`. -/
inductive Sample
  | bool (sint : UInt64)
  | sint (sint : UInt64)
  | ipv4 (ipv4 : Vector UInt8 4)
  | ipv6 (ipv6 : Vector UInt8 16)
  | str (str : SmpBuf)
  | bin (str : SmpBuf)
  | meth (meth : HttpMeth) (str : SmpBuf)
  | other

/-- The length and the offset of a sample that is sent in pieces
(`smp->ctx.a[0]` and `smp->ctx.a[1]`). -/
structure FragCtx where
  len : UInt32
  off : UInt32

/-- A number kept in an `int`. -/
def toInt (n : ℤ) : ℤ := Int.bmod n (2 ^ 32)

/-! ### Encoding -/

/-- `spoe_encode_buffer`: the value returned and the bytes written. -/
def spoeEncodeBuffer (str : List UInt8) (room : ℕ) : ℤ × List UInt8 :=
  if room = 0 then (-1, [])
  else if str.length = 0 then (0, [0])
  else match encodeVarint room str.length with
    | none => (-1, [])
    | some v => if room < v.length + str.length then (-1, []) else (toInt str.length, v ++ str)

/-- `spoe_encode_frag_buffer`; none when it copies a negative number of bytes. -/
def spoeEncodeFragBuffer (str : List UInt8) (room : ℕ) : Option (ℤ × List UInt8) :=
  if room = 0 then some (-1, [])
  else if str.length = 0 then some (0, [0])
  else match encodeVarint room str.length with
    | none => some (-1, [])
    | some v =>
      if room ≤ v.length then some (-1, [])
      else
        let ret := toInt (if str.length < room - v.length then str.length else room - v.length : ℕ)
        if ret < 0 then none else some (ret, v ++ str.take ret.toNat)

/-- What an encoding call leaves: the value returned, `*buf`, the bytes before it that
are new, and the context of the sample. -/
structure SpoeEncoded where
  ret : ℤ
  buf : ℕ
  out : List UInt8
  ctx : FragCtx

/-- An error: `*buf` is not moved. -/
def SpoeEncoded.error (buf : ℕ) (ctx : FragCtx) : SpoeEncoded := ⟨-1, buf, [], ctx⟩

/-- The end of `spoe_encode_data`. -/
def SpoeEncoded.finish (buf : ℕ) (ctx : FragCtx) (out : List UInt8) : SpoeEncoded :=
  ⟨toInt out.length, buf + out.length, out, ctx⟩

@[simp] theorem SpoeEncoded.finish_out (buf : ℕ) (ctx : FragCtx) (out : List UInt8) :
    (SpoeEncoded.finish buf ctx out).out = out := rfl

@[simp] theorem SpoeEncoded.finish_ctx (buf : ℕ) (ctx : FragCtx) (out : List UInt8) :
    (SpoeEncoded.finish buf ctx out).ctx = ctx := rfl

/-- The context after `ret` more bytes of the string. -/
def FragCtx.update (ctx : FragCtx) (ret : ℤ) : FragCtx :=
  if UInt32.ofNat ret.toNat + ctx.off ≠ ctx.len then
    { ctx with off := ctx.off + UInt32.ofNat ret.toNat }
  else { ctx with off := 0 }

/-- A string or binary, of the given type. -/
def spoeEncodeFrag (type : UInt8) (str : SmpBuf) (ctx : FragCtx) (buf room : ℕ) : Option SpoeEncoded :=
  if ctx.off = 0 then
    -- first evaluation of the sample
    (spoeEncodeFragBuffer str.area (room - 1)).map fun r =>
      if r.1 = -1 then .error buf ctx
      else
        let ctx' := { ctx with len := UInt32.ofNat str.area.length }
        .finish buf (ctx'.update r.1) (type :: r.2)
  else
    -- the sample has been fragmented, encode remaining data
    let ret := toInt (min (ctx.len - ctx.off).toNat room : ℕ)
    if ret < 0 then none
    else some (.finish buf (ctx.update ret) ((str.area.drop ctx.off.toNat).take ret.toNat))

def spoeMethName (m : HttpMeth) (str : SmpBuf) : List UInt8 :=
  match m with
  | .options => bytes "OPTIONS"
  | .get => bytes "GET"
  | .head => bytes "HEAD"
  | .post => bytes "POST"
  | .put => bytes "PUT"
  | .delete => bytes "DELETE"
  | .trace => bytes "TRACE"
  | .connect => bytes "CONNECT"
  | .other => str.area

/-- The `switch` of `spoe_encode_data`; the sample may be `NULL`. -/
def spoeEncodeTyped (smp : Option Sample) (ctx : FragCtx) (buf room : ℕ) : Option SpoeEncoded :=
  match smp with
  | none => some (.finish buf ctx [0x00])
  | some (.bool sint) => some (.finish buf ctx [0x01 ||| if sint = 0 then 0x00 else 0x10])
  | some (.sint sint) =>
    match encodeVarint (room - 1) sint.toNat with
    | none => some (.error buf ctx)
    | some v => some (.finish buf ctx (0x04 :: v))
  | some (.ipv4 a) =>
    some (if room < 5 then .error buf ctx else .finish buf ctx (0x06 :: a.toList))
  | some (.ipv6 a) =>
    some (if room < 17 then .error buf ctx else .finish buf ctx (0x07 :: a.toList))
  | some (.str str) => spoeEncodeFrag 0x08 str ctx buf room
  | some (.bin str) => spoeEncodeFrag 0x09 str ctx buf room
  | some (.meth m str) =>
    let r := spoeEncodeBuffer (spoeMethName m str) (room - 1)
    some (if r.1 = -1 then .error buf ctx else .finish buf ctx (0x08 :: r.2))
  | some .other => some (.finish buf ctx [0x00])

def spoeEncodeData (smp : Option Sample) (ctx : FragCtx) (buf room : ℕ) : Option SpoeEncoded :=
  if room = 0 then some (.error buf ctx) else spoeEncodeTyped smp ctx buf room

/-- Calls of `spoe_encode_data` until the offset is back to zero, each with the room
of its own buffer: all the bytes, when every call succeeds. -/
def spoeEncodeRun (smp : Option Sample) : FragCtx → List ℕ → Option (List UInt8)
  | _, [] => none
  | ctx, room :: rooms =>
    match spoeEncodeData smp ctx 0 room with
    | none => none
    | some r =>
      if r.ret = -1 then none
      else if r.ctx.off ≠ 0 then (spoeEncodeRun smp r.ctx rooms).map (r.out ++ ·)
      else if rooms = [] then some r.out
      else none

/-! ### Decoding -/

/-- `decode_varint`, as its callers see it: the number of bytes read is an `int`, and
`-1` stands for an error. -/
def spoeDecodeVarint (data : List UInt8) : Option (UInt64 × List UInt8) :=
  match decodeVarint data with
  | none => none
  | some (v, rest) =>
    if toInt (data.length - rest.length) = -1 then none else some (v, rest)

/-- What `spoe_decode_buffer` leaves. -/
structure BufferRead where
  ret : ℤ
  buf : ℕ
  str : ℕ
  len : UInt64

def spoeDecodeBuffer (buf : ℕ) (data : List UInt8) : BufferRead :=
  match spoeDecodeVarint data with
  | none => ⟨-1, buf, 0, 0⟩
  | some (sz, rest) =>
    let p := buf + (data.length - rest.length)
    if buf + data.length < (p + sz.toNat) % 2 ^ 64 then ⟨-1, buf, 0, 0⟩
    else ⟨toInt sz.toNat, (p + sz.toNat) % 2 ^ 64, p, sz⟩

/-- A sample filled in by `spoe_decode_data`; a string is not copied. -/
inductive Filled
  | bool (sint : UInt64)
  | sint (sint : UInt64)
  | ipv4 (ipv4 : Vector UInt8 4)
  | ipv6 (ipv6 : Vector UInt8 16)
  | str (area : ℕ) (data : UInt64)
  | bin (area : ℕ) (data : UInt64)

/-- What a decoding call leaves; `smp` is none when the sample is not touched. -/
structure DataRead where
  ret : ℤ
  buf : ℕ
  smp : Option Filled

def DataRead.error (buf : ℕ) : DataRead := ⟨-1, buf, none⟩

def DataRead.finish (buf p : ℕ) (smp : Option Filled) : DataRead := ⟨toInt (p - buf), p, smp⟩

def readBytes (n : ℕ) (data : List UInt8) : Vector UInt8 n := Vector.ofFn fun i => data.getD i 0

/-- The type of a data, without its flags (`SPOE_DATA_T_MASK`). -/
def spoeType (type : UInt8) : ℕ := (type &&& 0x0F).toNat

def spoeDecodeData (buf : ℕ) : List UInt8 → DataRead
  | [] => .error buf
  | type :: data =>
    let p := buf + 1
    let endp := p + data.length
    match spoeType type with
    | 1 => .finish buf p (some (.bool (if type &&& 0xF0 = 0x10 then 1 else 0)))
    | 2 | 3 | 4 | 5 =>
      match spoeDecodeVarint data with
      | none => .error buf
      | some (v, rest) => .finish buf (p + (data.length - rest.length)) (some (.sint v))
    | 6 =>
      if endp < (p + 4) % 2 ^ 64 then .error buf
      else .finish buf ((p + 4) % 2 ^ 64) (some (.ipv4 (readBytes 4 data)))
    | 7 =>
      if endp < (p + 16) % 2 ^ 64 then .error buf
      else .finish buf ((p + 16) % 2 ^ 64) (some (.ipv6 (readBytes 16 data)))
    | 8 | 9 =>
      let r := spoeDecodeBuffer p data
      if r.ret = -1 then .error buf
      else .finish buf r.buf (some (if type = 0x08 then .str r.str r.len else .bin r.str r.len))
    | _ => .finish buf p none

def spoeSkipData (buf : ℕ) : List UInt8 → ℤ × ℕ
  | [] => (-1, buf)
  | type :: data =>
    let p := buf + 1
    let endp := p + data.length
    match spoeType type with
    | 2 | 3 | 4 | 5 =>
      match spoeDecodeVarint data with
      | none => (-1, buf)
      | some (_, rest) =>
        let p' := p + (data.length - rest.length)
        (toInt (p' - buf), p')
    | 6 =>
      if endp < (p + 4) % 2 ^ 64 then (-1, buf)
      else (toInt ((p + 4) % 2 ^ 64 - buf : ℤ), (p + 4) % 2 ^ 64)
    | 7 =>
      if endp < (p + 16) % 2 ^ 64 then (-1, buf)
      else (toInt ((p + 16) % 2 ^ 64 - buf : ℤ), (p + 16) % 2 ^ 64)
    | 8 | 9 =>
      let r := spoeDecodeBuffer p data
      if r.ret = -1 then (-1, buf) else (toInt (r.buf - buf), r.buf)
    | _ => (toInt (p - buf), p)

end SmartHAProxy
