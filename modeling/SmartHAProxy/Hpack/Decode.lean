/-
The HPACK decoder (hpack-dec.c).

The bytes of a frame are the list of what is left to read.  A call ends with a
list of headers and the dynamic table, or with one of the errors, upon which the
connection is closed and the table not used any more.  The decoder of Huffman
codes is a parameter.

The temporary chunk is the number of bytes in use and its size: strings are
placed one behind the other, and stay as they are.

An integer that does not fit its prefix is continued in groups of 7 bits, the
lowest first, for as long as the top bit of the bytes is set (RFC 7541, 5.1).
`get_var_int` adds the groups modulo 2^32 and shifts them by 7 bits more each
time, without a limit: `getVarInt_exact_iff` says which integers it reads right.
-/
import SmartHAProxy.Hpack.Table

namespace SmartHAProxy

/-- The errors of `hpack_decode_frame`. -/
inductive HpackErr
  | unknownOpcode
  | truncated
  | huffman
  | tooLarge
  | invalidArgument
  deriving DecidableEq, Repr

/-- A call returns, ends with an error of its own, or is undefined. -/
abbrev HpackM := ExceptT HpackErr (Except Fault)

/-- A name: a string, or the number of a pseudo header. -/
inductive HpackHdrName
  | str (s : CStr)
  | phdr (n : ℕ)
  deriving DecidableEq, Repr

/-! ### Integers -/

/-- The loop of `get_var_int`.  A shift by 32 bits or more is undefined; `none` is a
truncated input. -/
def varIntLoop (ret shift : ℕ) : List UInt8 → Except Fault (Option (ℕ × List UInt8))
  | [] => .ok none
  | c :: raw =>
    if shift ≥ 32 then .error .overflow
    else
      let ret := (ret + c.toNat % 128 * 2 ^ shift) % 2 ^ 32
      if c.toNat ≥ 128 then varIntLoop ret (shift + 7) raw else .ok (some (ret, raw))

/-- `get_var_int`, with a prefix of `b` bits. -/
def getVarInt (b : ℕ) : List UInt8 → Except Fault (Option (ℕ × List UInt8))
  | [] => .error .outOfBounds
  | c :: raw =>
    if c.toNat % 2 ^ b ≠ 2 ^ b - 1 then .ok (some (c.toNat % 2 ^ b, raw))
    else varIntLoop (c.toNat % 2 ^ b) 0 raw

/-- An integer, or the error for a truncated input. -/
def readVarInt (b : ℕ) (raw : List UInt8) : HpackM (ℕ × List UInt8) :=
  match getVarInt b raw with
  | .error e => ExceptT.lift (.error e)
  | .ok none => throw .truncated
  | .ok (some r) => pure r

/-! ### Strings -/

/-- `hpack_idx_to_phdr` -/
def hpackIdxToPhdr (idx : ℕ) : ℕ :=
  if idx > 14 then 0 else (0x55554321 >>> (idx >>> 1 <<< 2)) &&& 0xF

/-- `chunk_newstr`: the new number of bytes in use. -/
def chunkNewstr (size data : ℕ) : HpackM ℕ := if data + 1 ≥ size then throw .tooLarge else pure (data + 1)

/-- `hpack_alloc_string`: the new number of bytes in use. -/
def hpackAllocString (size data idx : ℕ) (s : CStr) : HpackM ℕ :=
  if idx < hpackShtSize then pure data
  else do
    let data ← chunkNewstr size data
    if data + s.length > size then throw .tooLarge else pure (data + s.length)

/-- The decoder of Huffman codes: the codes and the room for the string. -/
abbrev HuffDec := CStr → ℕ → Option CStr

/-- A string literal: the string, the bytes that follow, and the bytes in use. -/
def readString (huffDec : HuffDec) (size data : ℕ) (raw : List UInt8) :
    HpackM (CStr × List UInt8 × ℕ) := do
  if raw = [] then throw .truncated
  let huff := (raw.headD 0).toNat ≥ 128
  let (len, raw) ← readVarInt 7 raw
  if raw.length < len then throw .truncated
  let s := raw.take len
  let raw := raw.drop len
  if huff then
    let data ← chunkNewstr size data
    match huffDec s (size - data) with
    | none => throw .huffman
    | some s => pure (s, raw, data + s.length)
  else pure (s, raw, data)

/-! ### Fields -/

/-- What one turn of the loop finds: a header and whether it has to be indexed, or an
update of the table size; the bytes that follow, and the bytes in use. -/
structure HpackField where
  hdr : Option (HpackHdrName × CStr × Bool)
  raw : List UInt8
  data : ℕ

/-- The name of an index, for a field that is not indexed. -/
def idxName (dht : HpackDht) (size data idx : ℕ) (mustIndex : Bool) :
    HpackM (HpackHdrName × ℕ) := do
  if mustIndex = false ∧ hpackIdxToPhdr idx ≠ 0 then pure (.phdr (hpackIdxToPhdr idx), data)
  else
    let name := hpackIdxToName dht idx
    let data ← hpackAllocString size data idx name
    pure (.str name, data)

def decodeIndexed (dht : HpackDht) (size data : ℕ) (raw : List UInt8) : HpackM HpackField := do
  let (idx, raw) ← readVarInt 7 raw
  if hpackValidIdx dht idx = false then throw .tooLarge
  let value := hpackIdxToValue dht idx
  let data ← hpackAllocString size data idx value
  let (name, data) ← idxName dht size data idx false
  pure ⟨some (name, value, false), raw, data⟩

/-- "literal header field without/never/with incremental indexing -- literal name" -/
def decodeLiteral (huffDec : HuffDec) (size data : ℕ) (c : UInt8) (raw : List UInt8) :
    HpackM HpackField := do
  let (name, raw, data) ← readString huffDec size data raw
  let (value, raw, data) ← readString huffDec size data raw
  pure ⟨some (.str name, value, c = 0x40), raw, data⟩

def decodeIdxName (huffDec : HuffDec) (dht : HpackDht) (size data : ℕ) (c : UInt8)
    (raw : List UInt8) : HpackM HpackField := do
  let mustIndex : Bool := c.toNat ≥ 0x41
  let (idx, raw) ← readVarInt (if mustIndex then 6 else 4) raw
  if raw = [] then throw .truncated
  if hpackValidIdx dht idx = false then throw .tooLarge
  let (value, raw, data) ← readString huffDec size data raw
  let (name, data) ← idxName dht size data idx mustIndex
  pure ⟨some (name, value, mustIndex), raw, data⟩

/-- "max dyn table size change", only at the beginning. -/
def decodeSizeUpdate (dht : HpackDht) (data ret : ℕ) (raw : List UInt8) : HpackM HpackField := do
  if ret ≠ 0 then throw .tooLarge
  let (idx, raw) ← readVarInt 5 raw
  if idx > dht.size then throw .invalidArgument
  pure ⟨none, raw, data⟩

/-- One turn of the loop, on the byte `c` and those that follow. -/
def decodeField (huffDec : HuffDec) (dht : HpackDht) (size data ret : ℕ) (c : UInt8)
    (raw : List UInt8) : HpackM HpackField :=
  if c.toNat ≥ 0x80 then
    if c = 0x80 then throw .unknownOpcode else decodeIndexed dht size data (c :: raw)
  else if c.toNat ≥ 0x20 ∧ c.toNat ≤ 0x3f then decodeSizeUpdate dht data ret (c :: raw)
  else if c &&& (c - 0x10) = 0 then decodeLiteral huffDec size data c raw
  else decodeIdxName huffDec dht size data c (c :: raw)

/-- `hpack_dht_insert`, for the fields that are indexed. -/
def indexField (dht : HpackDht) : HpackHdrName → CStr → Bool → HpackM HpackDht
  | .str name, value, true => ExceptT.lift (hpackDhtInsert dht name value)
  | _, _, _ => pure dht

/-- The loop of `hpack_decode_frame`; each turn reads one byte at least. -/
def decodeLoop (huffDec : HuffDec) (listSize size : ℕ) :
    ℕ → HpackDht → (data : ℕ) → List (HpackHdrName × CStr) → List UInt8 →
    HpackM (List (HpackHdrName × CStr) × HpackDht)
  | _, dht, _, list, [] => if list.length ≥ listSize then throw .tooLarge else pure (list, dht)
  | 0, dht, _, list, _ :: _ => pure (list, dht)
  | fuel + 1, dht, data, list, c :: raw => do
    let field ← decodeField huffDec dht size data list.length c raw
    match field.hdr with
    | none => decodeLoop huffDec listSize size fuel dht field.data list field.raw
    | some (name, value, mustIndex) =>
      if list.length ≥ listSize then throw .tooLarge
      let dht ← indexField dht name value mustIndex
      decodeLoop huffDec listSize size fuel dht field.data (list ++ [(name, value)]) field.raw

/-- `hpack_decode_frame`, with a list of `listSize` entries and a temporary chunk of `size`
bytes.  The list needs one more entry for the end marker. -/
def hpackDecodeFrame (huffDec : HuffDec) (dht : HpackDht) (raw : List UInt8) (listSize size : ℕ) :
    HpackM (List (HpackHdrName × CStr) × HpackDht) :=
  decodeLoop huffDec listSize size raw.length dht 0 [] raw

/-! ### The integers of RFC 7541 -/

/-- The bytes after the prefix: their value, and what follows. -/
def rfcContinue : List UInt8 → Option (ℕ × List UInt8)
  | [] => none
  | c :: raw =>
    if c.toNat ≥ 128 then (rfcContinue raw).map fun r => (c.toNat % 128 + 128 * r.1, r.2)
    else some (c.toNat, raw)

/-- An integer with a prefix of `b` bits, and what follows; `none` if it is cut. -/
def rfcVarInt (b : ℕ) : List UInt8 → Option (ℕ × List UInt8)
  | [] => none
  | c :: raw =>
    if c.toNat % 2 ^ b ≠ 2 ^ b - 1 then some (c.toNat % 2 ^ b, raw)
    else (rfcContinue raw).map fun r => (2 ^ b - 1 + r.1, r.2)

/-- How many bytes after the prefix belong to the integer. -/
def continuation : List UInt8 → ℕ
  | [] => 0
  | c :: raw => if c.toNat ≥ 128 then continuation raw + 1 else 1

/-! ### `get_var_int` -/

/-- The call reports a truncated input, or it returns the value of the integer and
consumes its bytes. -/
def VarIntExact (b : ℕ) (raw : List UInt8) : Prop :=
  getVarInt b raw = .ok none ∨
    ∃ r, getVarInt b raw = .ok (some r) ∧ rfcVarInt b raw = some r

theorem varIntLoop_of_le (raw : List UInt8) {ret k : ℕ} (h : k + continuation raw ≤ 5)
    (hret : ret < 2 ^ 32) : varIntLoop ret (7 * k) raw =
      .ok ((rfcContinue raw).map fun r => ((ret + r.1 * 2 ^ (7 * k)) % 2 ^ 32, r.2)) := by
  induction raw generalizing ret k with
  | nil => rfl
  | cons c raw ih =>
    rw [continuation] at h
    rw [varIntLoop, rfcContinue]
    by_cases hc : c.toNat ≥ 128
    · rw [if_pos hc] at h
      rw [if_neg (show ¬7 * k ≥ 32 by omega), if_pos hc, if_pos hc]
      have hmod : (ret + c.toNat % 128 * 2 ^ (7 * k)) % 2 ^ 32 < 2 ^ 32 :=
        Nat.mod_lt _ (Nat.two_pow_pos 32)
      have hshift : 7 * k + 7 = 7 * (k + 1) := rfl
      rw [hshift, ih (by omega) hmod, Option.map_map]
      refine congrArg Except.ok (congrArg (Option.map · (rfcContinue raw)) ?_)
      funext r
      refine Prod.ext ?_ rfl
      show ((ret + c.toNat % 128 * 2 ^ (7 * k)) % 2 ^ 32 + r.1 * 2 ^ (7 * (k + 1))) % 2 ^ 32 =
        (ret + (c.toNat % 128 + 128 * r.1) * 2 ^ (7 * k)) % 2 ^ 32
      have hpow : 2 ^ (7 * (k + 1)) = 2 ^ (7 * k) * 128 := by
        rw [← hshift, Nat.pow_add]
      rw [Nat.mod_add_mod, hpow]
      rw [Nat.add_mul, ← Nat.add_assoc, Nat.mul_comm 128 r.1, Nat.mul_assoc r.1,
        Nat.mul_comm (2 ^ (7 * k)) 128]
    · have hk : ¬7 * k ≥ 32 := by
        rw [if_neg hc] at h
        omega
      have hc' : c.toNat % 128 = c.toNat := Nat.mod_eq_of_lt (by omega)
      rw [if_neg hk, if_neg hc, if_neg hc, hc']
      rfl

theorem varIntLoop_of_gt (raw : List UInt8) {ret k : ℕ} (h : 5 < k + continuation raw)
    (hk : k ≤ 5) : varIntLoop ret (7 * k) raw = .error .overflow := by
  induction raw generalizing ret k with
  | nil => exact absurd h (Nat.not_lt.mpr hk)
  | cons c raw ih =>
    rw [continuation] at h
    rw [varIntLoop]
    by_cases hshift : 7 * k ≥ 32
    · rw [if_pos hshift]
    · have hc : c.toNat ≥ 128 := by
        by_contra hc
        rw [if_neg hc] at h
        omega
      rw [if_pos hc] at h
      rw [if_neg hshift, if_pos hc]
      exact ih (k := k + 1) (by omega) (by omega)

/-- **When `get_var_int` is exact**: the prefix holds the value, or at most five bytes
follow it and the value is below 2^32. -/
theorem getVarInt_exact_iff (b : ℕ) (c : UInt8) (raw : List UInt8) (hb : b ≤ 7) :
    VarIntExact b (c :: raw) ↔ c.toNat % 2 ^ b ≠ 2 ^ b - 1 ∨
      continuation raw ≤ 5 ∧ ∀ r, rfcVarInt b (c :: raw) = some r → r.1 < 2 ^ 32 := by
  unfold VarIntExact
  rw [getVarInt, rfcVarInt]
  by_cases hprefix : c.toNat % 2 ^ b ≠ 2 ^ b - 1
  · rw [if_pos hprefix, if_pos hprefix]
    exact iff_of_true (.inr ⟨_, rfl, rfl⟩) (.inl hprefix)
  · rw [if_neg hprefix, if_neg hprefix, or_iff_right hprefix, not_not.mp hprefix]
    have hpow : 2 ^ b ≤ 2 ^ 7 := Nat.pow_le_pow_right (by decide) hb
    by_cases hle : continuation raw ≤ 5
    · have hloop : varIntLoop (2 ^ b - 1) 0 raw = _ :=
        varIntLoop_of_le (k := 0) raw (by rwa [Nat.zero_add]) (by omega)
      rw [hloop, and_iff_right hle]
      rcases rfcContinue raw with - | ⟨v, rest⟩
      · exact iff_of_true (.inl rfl) fun r hr => absurd hr (by simp)
      · simp only [Option.map_some, Nat.mul_zero, pow_zero, Nat.mul_one, Except.ok.injEq,
          Option.some.injEq, reduceCtorEq, false_or, exists_eq_left', forall_eq', Prod.mk.injEq,
          and_true]
        -- reduced modulo 2^32, a number is the same only if it is smaller
        constructor
        · intro hmod
          rw [hmod]
          exact Nat.mod_lt _ (Nat.two_pow_pos 32)
        · exact fun hlt => (Nat.mod_eq_of_lt hlt).symm
    · have hloop : varIntLoop (2 ^ b - 1) 0 raw = .error .overflow :=
        varIntLoop_of_gt (k := 0) raw (by omega) (by omega)
      rw [hloop]
      refine iff_of_false ?_ fun h => hle h.1
      rintro (h | ⟨r, h, -⟩) <;> cases h

theorem getVarInt_exact_iff_ten :
    VarIntExact 5 [0x1f, 0x9a, 0x0a] ∧ rfcVarInt 5 [0x1f, 0x9a, 0x0a] = some (1337, []) := by
  refine ⟨(getVarInt_exact_iff 5 0x1f [0x9a, 0x0a] (by decide)).mpr (.inr ⟨by decide, ?_⟩),
    by decide⟩
  intro r hr
  have hvalue : rfcVarInt 5 [0x1f, 0x9a, 0x0a] = some (1337, []) := by decide
  rw [hvalue] at hr
  rw [← Option.some.inj hr]
  decide

/-- 2^32 + 127 is read as 127. -/
theorem not_getVarInt_exact :
    getVarInt 7 [0xff, 0x80, 0x80, 0x80, 0x80, 0x10] = .ok (some (127, [])) ∧
      rfcVarInt 7 [0xff, 0x80, 0x80, 0x80, 0x80, 0x10] = some (2 ^ 32 + 127, []) ∧
      ¬∀ b raw, 4 ≤ b → b ≤ 7 → raw ≠ [] → VarIntExact b raw := by
  have hcode : getVarInt 7 [0xff, 0x80, 0x80, 0x80, 0x80, 0x10] = .ok (some (127, [])) := by
    decide
  have hrfc : rfcVarInt 7 [0xff, 0x80, 0x80, 0x80, 0x80, 0x10] = some (2 ^ 32 + 127, []) := by
    decide
  refine ⟨hcode, hrfc, fun hall => ?_⟩
  have hexact := hall 7 [0xff, 0x80, 0x80, 0x80, 0x80, 0x10] (by decide) (by decide) (by decide)
  rcases hexact with h | ⟨r, h, h'⟩
  · rw [hcode] at h
    cases h
  · rw [hcode] at h
    rw [hrfc] at h'
    have heq := (Option.some.inj (Except.ok.inj h)).trans (Option.some.inj h').symm
    simp at heq

end SmartHAProxy
