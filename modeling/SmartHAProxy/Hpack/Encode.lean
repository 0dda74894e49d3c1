/-
The HPACK encoder (hpack-enc.c, haproxy/hpack-enc.h).

A header becomes a literal: with a name of the static table, which is also
indexed, or with a new name.  Strings are not compressed; their length comes
first, as an integer with a prefix of 7 bits.

`hpackBytes` are the bytes of a header.  `hpackEncodeHeader_eq` says when the
encoder has room for them, and that it never writes outside its buffer.
-/
import Mathlib.Data.Nat.Bits
import SmartHAProxy.Hpack.Table
import SmartHAProxy.Lib.Run

namespace SmartHAProxy

/-! ### Tables -/

/-- `hpack_enc_stream`: length, index and name of the headers of the static table. -/
def hpackEncStream : List UInt8 :=
  [
    0x03, 0x15, 0x61, 0x67, 0x65, 0x03, 0x3c, 0x76, 0x69, 0x61, 0x04, 0x21, 0x64, 0x61, 0x74, 0x65,
    0x04, 0x26, 0x68, 0x6f, 0x73, 0x74, 0x04, 0x22, 0x65, 0x74, 0x61, 0x67, 0x04, 0x25, 0x66, 0x72,
    0x6f, 0x6d, 0x04, 0x2d, 0x6c, 0x69, 0x6e, 0x6b, 0x04, 0x3b, 0x76, 0x61, 0x72, 0x79, 0x05, 0x04,
    0x3a, 0x70, 0x61, 0x74, 0x68, 0x05, 0x16, 0x61, 0x6c, 0x6c, 0x6f, 0x77, 0x05, 0x32, 0x72, 0x61,
    0x6e, 0x67, 0x65, 0x06, 0x13, 0x61, 0x63, 0x63, 0x65, 0x70, 0x74, 0x06, 0x36, 0x73, 0x65, 0x72,
    0x76, 0x65, 0x72, 0x06, 0x20, 0x63, 0x6f, 0x6f, 0x6b, 0x69, 0x65, 0x06, 0x23, 0x65, 0x78, 0x70,
    0x65, 0x63, 0x74, 0x07, 0x33, 0x72, 0x65, 0x66, 0x65, 0x72, 0x65, 0x72, 0x07, 0x24, 0x65, 0x78,
    0x70, 0x69, 0x72, 0x65, 0x73, 0x07, 0x02, 0x3a, 0x6d, 0x65, 0x74, 0x68, 0x6f, 0x64, 0x07, 0x06,
    0x3a, 0x73, 0x63, 0x68, 0x65, 0x6d, 0x65, 0x07, 0x08, 0x3a, 0x73, 0x74, 0x61, 0x74, 0x75, 0x73,
    0x07, 0x34, 0x72, 0x65, 0x66, 0x72, 0x65, 0x73, 0x68, 0x08, 0x2e, 0x6c, 0x6f, 0x63, 0x61, 0x74,
    0x69, 0x6f, 0x6e, 0x08, 0x27, 0x69, 0x66, 0x2d, 0x6d, 0x61, 0x74, 0x63, 0x68, 0x08, 0x2a, 0x69,
    0x66, 0x2d, 0x72, 0x61, 0x6e, 0x67, 0x65, 0x0a, 0x3a, 0x75, 0x73, 0x65, 0x72, 0x2d, 0x61, 0x67,
    0x65, 0x6e, 0x74, 0x0a, 0x37, 0x73, 0x65, 0x74, 0x2d, 0x63, 0x6f, 0x6f, 0x6b, 0x69, 0x65, 0x0a,
    0x01, 0x3a, 0x61, 0x75, 0x74, 0x68, 0x6f, 0x72, 0x69, 0x74, 0x79, 0x0b, 0x35, 0x72, 0x65, 0x74,
    0x72, 0x79, 0x2d, 0x61, 0x66, 0x74, 0x65, 0x72, 0x0c, 0x1f, 0x63, 0x6f, 0x6e, 0x74, 0x65, 0x6e,
    0x74, 0x2d, 0x74, 0x79, 0x70, 0x65, 0x0c, 0x2f, 0x6d, 0x61, 0x78, 0x2d, 0x66, 0x6f, 0x72, 0x77,
    0x61, 0x72, 0x64, 0x73, 0x0d, 0x18, 0x63, 0x61, 0x63, 0x68, 0x65, 0x2d, 0x63, 0x6f, 0x6e, 0x74,
    0x72, 0x6f, 0x6c, 0x0d, 0x2c, 0x6c, 0x61, 0x73, 0x74, 0x2d, 0x6d, 0x6f, 0x64, 0x69, 0x66, 0x69,
    0x65, 0x64, 0x0d, 0x12, 0x61, 0x63, 0x63, 0x65, 0x70, 0x74, 0x2d, 0x72, 0x61, 0x6e, 0x67, 0x65,
    0x73, 0x0d, 0x29, 0x69, 0x66, 0x2d, 0x6e, 0x6f, 0x6e, 0x65, 0x2d, 0x6d, 0x61, 0x74, 0x63, 0x68,
    0x0d, 0x17, 0x61, 0x75, 0x74, 0x68, 0x6f, 0x72, 0x69, 0x7a, 0x61, 0x74, 0x69, 0x6f, 0x6e, 0x0d,
    0x1e, 0x63, 0x6f, 0x6e, 0x74, 0x65, 0x6e, 0x74, 0x2d, 0x72, 0x61, 0x6e, 0x67, 0x65, 0x0e, 0x1c,
    0x63, 0x6f, 0x6e, 0x74, 0x65, 0x6e, 0x74, 0x2d, 0x6c, 0x65, 0x6e, 0x67, 0x74, 0x68, 0x0e, 0x0f,
    0x61, 0x63, 0x63, 0x65, 0x70, 0x74, 0x2d, 0x63, 0x68, 0x61, 0x72, 0x73, 0x65, 0x74, 0x0f, 0x10,
    0x61, 0x63, 0x63, 0x65, 0x70, 0x74, 0x2d, 0x65, 0x6e, 0x63, 0x6f, 0x64, 0x69, 0x6e, 0x67, 0x0f,
    0x11, 0x61, 0x63, 0x63, 0x65, 0x70, 0x74, 0x2d, 0x6c, 0x61, 0x6e, 0x67, 0x75, 0x61, 0x67, 0x65,
    0x10, 0x1a, 0x63, 0x6f, 0x6e, 0x74, 0x65, 0x6e, 0x74, 0x2d, 0x65, 0x6e, 0x63, 0x6f, 0x64, 0x69,
    0x6e, 0x67, 0x10, 0x1b, 0x63, 0x6f, 0x6e, 0x74, 0x65, 0x6e, 0x74, 0x2d, 0x6c, 0x61, 0x6e, 0x67,
    0x75, 0x61, 0x67, 0x65, 0x10, 0x1d, 0x63, 0x6f, 0x6e, 0x74, 0x65, 0x6e, 0x74, 0x2d, 0x6c, 0x6f,
    0x63, 0x61, 0x74, 0x69, 0x6f, 0x6e, 0x10, 0x3d, 0x77, 0x77, 0x77, 0x2d, 0x61, 0x75, 0x74, 0x68,
    0x65, 0x6e, 0x74, 0x69, 0x63, 0x61, 0x74, 0x65, 0x11, 0x39, 0x74, 0x72, 0x61, 0x6e, 0x73, 0x66,
    0x65, 0x72, 0x2d, 0x65, 0x6e, 0x63, 0x6f, 0x64, 0x69, 0x6e, 0x67, 0x11, 0x28, 0x69, 0x66, 0x2d,
    0x6d, 0x6f, 0x64, 0x69, 0x66, 0x69, 0x65, 0x64, 0x2d, 0x73, 0x69, 0x6e, 0x63, 0x65, 0x12, 0x30,
    0x70, 0x72, 0x6f, 0x78, 0x79, 0x2d, 0x61, 0x75, 0x74, 0x68, 0x65, 0x6e, 0x74, 0x69, 0x63, 0x61,
    0x74, 0x65, 0x13, 0x19, 0x63, 0x6f, 0x6e, 0x74, 0x65, 0x6e, 0x74, 0x2d, 0x64, 0x69, 0x73, 0x70,
    0x6f, 0x73, 0x69, 0x74, 0x69, 0x6f, 0x6e, 0x13, 0x2b, 0x69, 0x66, 0x2d, 0x75, 0x6e, 0x6d, 0x6f,
    0x64, 0x69, 0x66, 0x69, 0x65, 0x64, 0x2d, 0x73, 0x69, 0x6e, 0x63, 0x65, 0x13, 0x31, 0x70, 0x72,
    0x6f, 0x78, 0x79, 0x2d, 0x61, 0x75, 0x74, 0x68, 0x6f, 0x72, 0x69, 0x7a, 0x61, 0x74, 0x69, 0x6f,
    0x6e, 0x19, 0x38, 0x73, 0x74, 0x72, 0x69, 0x63, 0x74, 0x2d, 0x74, 0x72, 0x61, 0x6e, 0x73, 0x70,
    0x6f, 0x72, 0x74, 0x2d, 0x73, 0x65, 0x63, 0x75, 0x72, 0x69, 0x74, 0x79, 0x1b, 0x14, 0x61, 0x63,
    0x63, 0x65, 0x73, 0x73, 0x2d, 0x63, 0x6f, 0x6e, 0x74, 0x72, 0x6f, 0x6c, 0x2d, 0x61, 0x6c, 0x6c,
    0x6f, 0x77, 0x2d, 0x6f, 0x72, 0x69, 0x67, 0x69, 0x6e, 0x00 ]

/-- `hpack_pos_len`: where the names of a length begin. -/
def hpackPosLen : List ℤ :=
  [
    -1, -1, -1, 0, 10, 46, 67, 99, 153, -1, 183, 219, 232, 260, 350, 382,
    416, 488, 526, 546, -1, -1, -1, -1, -1, 609, -1, 636, -1, -1, -1, -1 ]

/-! ### The encoder -/

/-- `struct buffer`, for chunks: the data begins at the start of the area. -/
structure Chunk where
  area : List UInt8
  data : ℕ

def Chunk.size (c : Chunk) : ℕ := c.area.length

/-- The length of the data and the size are values of an `int`, as those of all buffers. -/
def Chunk.IntSized (c : Chunk) : Prop := c.data < 2 ^ 31 ∧ c.size < 2 ^ 31

instance decidableIntSized (c : Chunk) : Decidable c.IntSized :=
  inferInstanceAs (Decidable (c.data < 2 ^ 31 ∧ c.size < 2 ^ 31))

/-- `hpack_len_to_bytes` -/
def hpackLenToBytes (len : ℕ) : ℕ :=
  let slen : ℤ := len - 127
  if slen < 0 then 1
  else if slen < 2 ^ 14 then if slen < 2 ^ 7 then 2 else 3
  else if slen < 2 ^ 21 then 4
  else 0

/-- The loop of `hpack_encode_len`, 7 bits at a time. -/
def encodeLenLoop (code : ℕ) : List UInt8 :=
  if 128 ≤ code then UInt8.ofNat (code ||| 128) :: encodeLenLoop (code >>> 7)
  else [UInt8.ofNat code]
termination_by code
decreasing_by
  rw [Nat.shiftRight_eq_div_pow]
  omega

/-- `hpack_encode_len`: what it writes. -/
def hpackEncodeLen (len : ℕ) : List UInt8 :=
  if len < 127 then [UInt8.ofNat len] else 127 :: encodeLenLoop (len - 127)

/-- The search for a name of the static table, among those of its length. -/
def staticSearch (n : CStr) : ℕ → ℕ → Option UInt8
  | 0, _ => none
  | fuel + 1, pos =>
    let idx := hpackEncStream.getD (pos + 1) 0
    if (hpackEncStream.drop (pos + 2)).take n.length = n then some idx
    else if (hpackEncStream.getD (pos + 2 + n.length) 0).toNat = n.length then
      staticSearch n fuel (pos + 2 + n.length)
    else none

/-- The index of a name in the static table.  No more names have one length than there
are bytes in the stream. -/
def staticIdx (n : CStr) : Option UInt8 :=
  if n.length ≥ hpackPosLen.length then none
  else
    let pos := hpackPosLen.getD n.length (-1)
    if pos ≥ 0 then staticSearch n hpackEncStream.length pos.toNat else none

/-- From `emit_value` on. -/
def emitValue (out : Chunk) (area : List UInt8) (len : ℕ) (v : CStr) : Except Fault (Bool × Chunk) :=
  if hpackLenToBytes v.length = 0 ∨ len + hpackLenToBytes v.length + v.length > out.size then
    .ok (false, { out with area := area })
  else do
    let area ← memWrite area len (hpackEncodeLen v.length)
    let len := len + (hpackEncodeLen v.length).length
    let area ← memWrite area len v
    pure (true, ⟨area, len + v.length⟩)

/-- `hpack_encode_header`.  Length and size are assigned to variables of type `int`. -/
def hpackEncodeHeader (out : Chunk) (n v : CStr) : Except Fault (Bool × Chunk) :=
  let len := out.data
  if ¬ out.IntSized then .error .overflow
  else if len ≥ out.size then .ok (false, out)
  else match staticIdx n with
    | some idx => do
      let area ← memWrite out.area len [idx ||| 0x40]
      emitValue out area (len + 1) v
    | none =>
      if n.length < 127 ∧ len + 2 + n.length ≤ out.size then do
        let area ← memWrite out.area len [0x00, UInt8.ofNat n.length]
        let area ← memWrite area (len + 2) n
        emitValue out area (len + 2 + n.length) v
      else if hpackLenToBytes n.length ≠ 0 ∧
          len + 1 + hpackLenToBytes n.length + n.length ≤ out.size then do
        let area ← memWrite out.area len [0x00]
        let area ← memWrite area (len + 1) (hpackEncodeLen n.length)
        let len := len + 1 + (hpackEncodeLen n.length).length
        let area ← memWrite area len n
        emitValue out area (len + n.length) v
      else .ok (false, out)

/-! ### Lengths -/

def hpackMaxLen : ℕ := 2097278

theorem length_encodeLenLoop {code : ℕ} (h : code < 2 ^ 21) :
    (encodeLenLoop code).length = if code < 2 ^ 7 then 1 else if code < 2 ^ 14 then 2 else 3 := by
  -- at most three groups of 7 bits
  have hshift (c : ℕ) : c >>> 7 = c / 128 := by rw [Nat.shiftRight_eq_div_pow]
  rw [encodeLenLoop]
  split_ifs with h₁ h₂ h₃ h₄ h₅
  · omega
  · rw [List.length_cons, encodeLenLoop, hshift, if_neg (by omega)]
    rfl
  · rw [List.length_cons, encodeLenLoop, hshift, if_pos (by omega), List.length_cons, encodeLenLoop,
      hshift, if_neg (by omega)]
    rfl
  · rfl
  · omega
  · omega

theorem hpackLenToBytes_eq {len : ℕ} (h : len ≤ hpackMaxLen) :
    hpackLenToBytes len = (hpackEncodeLen len).length := by
  have hmax : len ≤ 2097278 := h
  simp only [hpackLenToBytes, hpackEncodeLen]
  by_cases hshort : len < 127
  · rw [if_pos (by omega), if_pos hshort]
    rfl
  · rw [if_neg (by omega), if_neg hshort, List.length_cons, length_encodeLenLoop (by omega)]
    split_ifs <;> omega

theorem hpackLenToBytes_eq_zero {len : ℕ} (h : hpackMaxLen < len) : hpackLenToBytes len = 0 := by
  have hmax : 2097278 < len := h
  simp only [hpackLenToBytes]
  rw [if_neg (by omega), if_neg (by omega), if_neg (by omega)]

theorem length_hpackEncodeLen_pos (len : ℕ) : 0 < (hpackEncodeLen len).length := by
  rw [hpackEncodeLen]
  split_ifs
  · exact Nat.one_pos
  · exact Nat.succ_pos _

/-! ### What is written -/

def hpackString (s : CStr) : List UInt8 := hpackEncodeLen s.length ++ s

def hpackName (n : CStr) : List UInt8 :=
  match staticIdx n with
  | some idx => [idx ||| 0x40]
  | none => 0x00 :: hpackString n

def hpackBytes (n v : CStr) : List UInt8 := hpackName n ++ hpackString v

/-- What the encoder does when `pre` has been written and the value is next. -/
structure Encoded (out : Chunk) (fits : Prop) (bytes : List UInt8) (r : Bool × Chunk) : Prop where
  size : r.2.size = out.size
  fits : r.1 = true ↔ fits ∧ out.data + bytes.length ≤ out.size
  area : r.1 = true → r.2.area = overwrite out.area out.data bytes
  data : r.2.data = if r.1 then out.data + bytes.length else out.data

theorem length_hpackString (s : CStr) :
    (hpackString s).length = (hpackEncodeLen s.length).length + s.length := List.length_append

theorem emitValue_spec {out : Chunk} {pre v : CStr} (hpre : out.data + pre.length ≤ out.size) :
    ∃ r, emitValue out (overwrite out.area out.data pre) (out.data + pre.length) v = .ok r ∧
      Encoded out (v.length ≤ hpackMaxLen) (pre ++ hpackString v) r := by
  have hlen : (overwrite out.area out.data pre).length = out.size := length_overwrite (.inr hpre)
  have hbytes : (pre ++ hpackString v).length
      = pre.length + ((hpackEncodeLen v.length).length + v.length) := by
    rw [List.length_append, length_hpackString]
  rw [emitValue]
  split_ifs with hfull
  · refine ⟨_, rfl, hlen, ?_, fun h => Bool.noConfusion h, rfl⟩
    simp only [Bool.false_eq_true, false_iff, not_and]
    intro hmax
    have hpos := length_hpackEncodeLen_pos v.length
    rw [hpackLenToBytes_eq hmax] at hfull
    omega
  · have hmax : v.length ≤ hpackMaxLen := by
      by_contra hlarge
      exact hfull (.inl (hpackLenToBytes_eq_zero (by omega)))
    rw [hpackLenToBytes_eq hmax] at hfull
    have hdata : out.data ≤ out.area.length := Nat.le_trans (Nat.le_add_right _ _) hpre
    have hsize : out.size = out.area.length := rfl
    have hw₁ : hpackEncodeLen v.length = [] ∨ out.data + pre.length + (hpackEncodeLen v.length).length
        ≤ (overwrite out.area out.data pre).length := .inr (by omega)
    rw [memWrite_eq hw₁, overwrite_append hdata]
    have hw₂ : v = [] ∨ out.data + pre.length + (hpackEncodeLen v.length).length + v.length
        ≤ (overwrite out.area out.data (pre ++ hpackEncodeLen v.length)).length := by
      rw [length_overwrite (.inr (by rw [List.length_append]; omega))]
      exact .inr (by omega)
    show ∃ r, Except.bind (memWrite (overwrite out.area out.data (pre ++ hpackEncodeLen v.length)) _ _) _
      = .ok r ∧ _
    rw [memWrite_eq hw₂, Nat.add_assoc out.data, ← List.length_append, overwrite_append hdata,
      List.append_assoc, List.length_append, Nat.add_assoc out.data, Nat.add_assoc pre.length, ← hbytes]
    refine ⟨_, rfl, ?_, ?_, fun _ => rfl, rfl⟩
    · show (overwrite out.area out.data (pre ++ hpackString v)).length = _
      exact length_overwrite (.inr (by omega))
    · simp only [true_iff]
      exact ⟨hmax, by omega⟩

theorem Encoded.of_iff {out : Chunk} {fits fits' : Prop} {bytes : List UInt8} {r : Bool × Chunk}
    (h : Encoded out fits bytes r) (hiff : fits ↔ fits') : Encoded out fits' bytes r :=
  ⟨h.size, by rw [h.fits, hiff], h.area, h.data⟩

theorem length_lt_of_staticIdx {n : CStr} {idx : UInt8} (h : staticIdx n = some idx) :
    n.length < 32 := by
  have hlen : hpackPosLen.length = 32 := rfl
  rw [staticIdx, hlen] at h
  by_contra hlarge
  rw [if_pos (by omega)] at h
  cases h

/-- The name is written if it has room, and the value is next. -/
theorem hpackEncodeHeader_eq {out : Chunk} (hint : out.IntSized) (n v : CStr) :
    hpackEncodeHeader out n v
      = if n.length ≤ hpackMaxLen ∧ out.data + (hpackName n).length ≤ out.size then
          emitValue out (overwrite out.area out.data (hpackName n)) (out.data + (hpackName n).length) v
        else .ok (false, out) := by
  have hsize : out.size = out.area.length := rfl
  have hmaxlen : hpackMaxLen = 2097278 := rfl
  have hstring := length_hpackString n
  have hpos := length_hpackEncodeLen_pos n.length
  simp only [hpackEncodeHeader, hint, not_true_eq_false, if_false]
  rcases hidx : staticIdx n with - | idx
  · have hname : hpackName n = [0x00] ++ hpackString n := by
      rw [hpackName, hidx]
      rfl
    have hcount : (hpackName n).length = 1 + (hpackString n).length := by
      rw [hname, List.length_append, List.length_singleton]
    dsimp only
    by_cases hroom : n.length ≤ hpackMaxLen ∧ out.data + (hpackName n).length ≤ out.size
    · rw [if_pos hroom, if_neg (by omega)]
      by_cases hshort : n.length < 127
      · -- one byte for the length
        have hone : hpackEncodeLen n.length = [UInt8.ofNat n.length] := if_pos hshort
        have hfirst : hpackName n = [0x00, UInt8.ofNat n.length] ++ n := by
          rw [hname, hpackString, hone]
          rfl
        have hlen : (hpackName n).length = 2 + n.length := by
          rw [hfirst, List.length_append]
          rfl
        rw [if_pos (by omega), hlen, ← Nat.add_assoc, hfirst]
        refine memWrite_bind_memWrite ?_ fun area => emitValue out area (out.data + 2 + n.length) v
        rw [← hfirst]
        omega
      · rw [if_neg (by omega), hpackLenToBytes_eq hroom.1, if_pos (by omega)]
        have hfirst : hpackName n = [0x00] ++ hpackEncodeLen n.length ++ n := by
          rw [hname, hpackString, List.append_assoc]
        have hlen : (hpackName n).length = ([0x00] ++ hpackEncodeLen n.length).length + n.length := by
          rw [hfirst, List.length_append]
        have hlen' : ([0x00] ++ hpackEncodeLen n.length).length = 1 + (hpackEncodeLen n.length).length :=
          List.length_append
        refine (memWrite_bind_memWrite (by omega) _).trans ?_
        have hover : (overwrite out.area out.data ([0x00] ++ hpackEncodeLen n.length)).length
            = out.area.length := length_overwrite (.inr (by omega))
        rw [Nat.add_assoc out.data, ← hlen', memWrite_bind (by omega), overwrite_append (by omega),
          ← hfirst, Nat.add_assoc, ← hlen]
    · rw [if_neg hroom]
      split_ifs with hfull hshort hlong
      · rfl
      · have hone : (hpackEncodeLen n.length).length = 1 := by
          rw [hpackEncodeLen, if_pos hshort.1]
          rfl
        exact absurd ⟨by omega, by omega⟩ hroom
      · have hmax : n.length ≤ hpackMaxLen := by
          by_contra hlarge
          exact hlong.1 (hpackLenToBytes_eq_zero (by omega))
        rw [hpackLenToBytes_eq hmax] at hlong
        exact absurd ⟨hmax, by omega⟩ hroom
      · rfl
  · have hname : hpackName n = [idx ||| 0x40] := by rw [hpackName, hidx]
    have hlen := length_lt_of_staticIdx hidx
    rw [hname, List.length_singleton]
    dsimp only
    by_cases hroom : out.data + 1 ≤ out.size
    · rw [if_neg (by omega), if_pos ⟨by omega, hroom⟩]
      exact memWrite_bind hroom _
    · rw [if_pos (by omega), if_neg (by omega)]

/-- **The encoder** writes the bytes of the header if they have room, and leaves the length
of the data if not.  It writes nothing outside the area. -/
theorem hpackEncodeHeader_spec {out : Chunk} (hint : out.IntSized) (n v : CStr) :
    ∃ r, hpackEncodeHeader out n v = .ok r ∧
      Encoded out (n.length ≤ hpackMaxLen ∧ v.length ≤ hpackMaxLen) (hpackBytes n v) r := by
  rw [hpackEncodeHeader_eq hint]
  split_ifs with hroom
  · obtain ⟨r, hrun, henc⟩ := emitValue_spec (v := v) hroom.2
    exact ⟨r, hrun, henc.of_iff (by tauto)⟩
  · refine ⟨_, rfl, rfl, ?_, fun h => Bool.noConfusion h, rfl⟩
    have hlen : (hpackBytes n v).length = (hpackName n).length + (hpackString v).length :=
      List.length_append
    simp only [Bool.false_eq_true, false_iff]
    rintro ⟨⟨hn, -⟩, hle⟩
    exact hroom ⟨hn, by omega⟩

theorem intSized_of_ok {out : Chunk} {n v : CStr} {r : Bool × Chunk}
    (h : hpackEncodeHeader out n v = .ok r) : out.IntSized := by
  by_contra hint
  simp only [hpackEncodeHeader, hint, not_false_eq_true, if_true] at h
  cases h

/-! ### Lists of headers -/

def hpackBlock (hs : List (CStr × CStr)) : List UInt8 := hs.flatMap fun h => hpackBytes h.1 h.2

/-- Headers one after the other, until one has no room. -/
def encodeAll (out : Chunk) : List (CStr × CStr) → Except Fault (Option Chunk)
  | [] => .ok (some out)
  | h :: hs =>
    match hpackEncodeHeader out h.1 h.2 with
    | .ok (true, out) => encodeAll out hs
    | .ok (false, _) => .ok none
    | .error e => .error e

/-- What has been written by a series of calls that all had room. -/
theorem encodeAll_spec {hs : List (CStr × CStr)} :
    ∀ {out out' : Chunk}, encodeAll out hs = .ok (some out') →
      (∀ h ∈ hs, h.1.length ≤ hpackMaxLen ∧ h.2.length ≤ hpackMaxLen) ∧
      (hs = [] ∨ out.data + (hpackBlock hs).length ≤ out.size) ∧
      out'.area = overwrite out.area out.data (hpackBlock hs) ∧
      out'.data = out.data + (hpackBlock hs).length := by
  induction hs with
  | nil =>
    intro out out' h
    obtain rfl : out = out' := by simpa [encodeAll] using h
    refine ⟨fun h hh => absurd hh List.not_mem_nil, .inl rfl, ?_, rfl⟩
    rw [hpackBlock, List.flatMap_nil, overwrite_nil]
  | cons h hs ih =>
    intro out out' hrun
    rw [encodeAll] at hrun
    rcases hone : hpackEncodeHeader out h.1 h.2 with e | ⟨b, out₁⟩
    · rw [hone] at hrun
      cases hrun
    obtain ⟨r, hr, henc⟩ := hpackEncodeHeader_spec (intSized_of_ok hone) h.1 h.2
    obtain rfl : (b, out₁) = r := Except.ok.inj (hone.symm.trans hr)
    rw [hone] at hrun
    cases b with
    | false => cases hrun
    | true =>
      obtain ⟨hlen, hroom⟩ := henc.fits.mp rfl
      obtain ⟨hrest, hfits, harea, hdata⟩ := ih hrun
      have harea₁ : out₁.area = overwrite out.area out.data (hpackBytes h.1 h.2) := henc.area rfl
      have hdata₁ : out₁.data = out.data + (hpackBytes h.1 h.2).length := henc.data
      have hsize₁ : out₁.size = out.size := henc.size
      have hblock : hpackBlock (h :: hs) = hpackBytes h.1 h.2 ++ hpackBlock hs := List.flatMap_cons
      have hcount : (hpackBlock (h :: hs)).length
          = (hpackBytes h.1 h.2).length + (hpackBlock hs).length := by
        rw [hblock, List.length_append]
      refine ⟨fun h' hh' => ?_, .inr ?_, ?_, ?_⟩
      · rcases List.mem_cons.mp hh' with rfl | hmem
        · exact hlen
        · exact hrest h' hmem
      · rcases hfits with rfl | hfits
        · have hnil : (hpackBlock []).length = 0 := rfl
          omega
        · omega
      · have hdata' : out.data ≤ out.area.length := by
          have : out.size = out.area.length := rfl
          omega
        rw [harea, harea₁, hdata₁, overwrite_append hdata', hblock]
      · rw [hdata, hdata₁, hcount, Nat.add_assoc]

end SmartHAProxy
