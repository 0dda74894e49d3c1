/-
Name-value pairs of the FastCGI protocol (fcgi.c).

A parameter is the length of its name, the length of its value, the name and the
value; a length takes one byte below 128 and four bytes from there on.  The
encoder writes into a chunk.  The two decoders read from a buffer, which may
wrap for the first one only; they differ in nothing but where byte number `k` of
the buffer stands.

A decoder returns pointers into the area.  What they point to is read without
wrapping (`fcgiRead`), so a name or a value that crosses the end of the area is
not given back.  The last test of a decoder compares the announced lengths with
the data of the buffer, and not with what is left of it: the returned length may
reach behind the data.

Main result: `Presents.fcgiDecode_iff`, for both decoders.
-/
import Mathlib.Algebra.Ring.Nat
import SmartHAProxy.Buf.Content
import SmartHAProxy.Http.Basic

namespace SmartHAProxy

/-! ### Encoding -/

/-- `struct fcgi_param`. -/
structure FcgiParam where
  n : CStr
  v : CStr
  deriving DecidableEq

def istUc (c : UInt8) : UInt8 := if 97 ≤ c && c ≤ 122 then c - 32 else c

def fcgiNameChar (c : UInt8) : UInt8 := if isAlpha c || isDigit c then istUc c else 95

def fcgiLenBytes (len : ℕ) : List UInt8 :=
  if len >>> 7 = 0 then [UInt8.ofNat (len &&& 0xff)]
  else [UInt8.ofNat (((len >>> 24) &&& 0xff) ||| 0x80), UInt8.ofNat ((len >>> 16) &&& 0xff),
    UInt8.ofNat ((len >>> 8) &&& 0xff), UInt8.ofNat (len &&& 0xff)]

/-- `nbytes` and `vbytes`. -/
def fcgiLenSize (len : ℕ) : ℕ := if len >>> 7 = 0 then 1 else 4

/-- Some bytes are stored behind the data of a chunk. -/
def chunkPut (out : Buffer) (blk : List UInt8) : Except Fault Buffer := do
  let area ← memWrite out.area out.data blk
  pure { out with area, data := out.data + blk.length }

/-- `fcgi_encode_param`; none for the return value 0. -/
def fcgiEncodeParam (out : Buffer) (p : FcgiParam) : Except Fault (Option Buffer) :=
  if out.data + fcgiLenSize p.n.length + p.n.length + fcgiLenSize p.v.length + p.v.length
      ≥ bSize out then .ok none
  else do
    let out ← chunkPut out (fcgiLenBytes p.n.length)
    let out ← chunkPut out (fcgiLenBytes p.v.length)
    let out ← chunkPut out (p.n.map fcgiNameChar)
    let out ← chunkPut out p.v
    pure (some out)

/-! ### Decoding -/

/-- A pointer into the area and a length. -/
structure AreaIst where
  ptr : ℕ
  len : ℕ
  deriving DecidableEq

/-- The parameter that is filled and the value returned, which is not 0. -/
structure FcgiDecoded where
  n : AreaIst
  v : AreaIst
  ret : ℕ
  deriving DecidableEq

section Decoders

variable (addr : ℕ → ℕ) (b : Buffer)

/-- The byte number `o` of the buffer. -/
def fcgiPeek (o : ℕ) : Except Fault UInt8 :=
  match b.area[addr o]? with
  | some c => .ok c
  | none => .error .outOfBounds

/-- A length is read at the offset `o`: its value, the offset behind it and the count of bytes
read; none if some bytes are missing. -/
def fcgiLen (o len : ℕ) : Except Fault (Option (ℕ × ℕ × ℕ)) :=
  if b.data < o + 1 then .ok none
  else do
    let b0 ← fcgiPeek addr b o
    let o := o + 1
    if b0 >>> 7 = 0 then pure (some (b0.toNat, o, len + 1))
    else if b.data < o + 3 then pure none
    else do
      let b1 ← fcgiPeek addr b o
      let b2 ← fcgiPeek addr b (o + 1)
      let b3 ← fcgiPeek addr b (o + 2)
      pure (some (((b0 &&& 0x7f).toNat <<< 24) + (b1.toNat <<< 16) + (b2.toNat <<< 8) + b3.toNat,
        o + 3, len + 4))

/-- The two decoders; byte number `k` of the buffer stands at `addr k`. -/
def fcgiDecode (o : ℕ) : Except Fault (Option FcgiDecoded) := do
  match ← fcgiLen addr b o 0 with
  | none => pure none
  | some (nlen, o, len) =>
    match ← fcgiLen addr b o len with
    | none => pure none
    | some (vlen, o, len) =>
      if b.data < nlen + vlen then pure none
      else pure (some ⟨⟨addr o, nlen⟩, ⟨addr (o + nlen), vlen⟩, len + (nlen + vlen)⟩)

end Decoders

def fcgiDecodeParam (b : Buffer) (o : ℕ) : Except Fault (Option FcgiDecoded) :=
  fcgiDecode (bPeekOfs b) b o

def fcgiAlignedDecodeParam (b : Buffer) (o : ℕ) : Except Fault (Option FcgiDecoded) :=
  fcgiDecode id b o

/-- The bytes that an `ist` designates. -/
def fcgiRead (b : Buffer) (s : AreaIst) : Except Fault CStr := memRead b.area s.ptr s.len

/-! ### Lengths -/

/-- The bytes of a length, as the protocol has them. -/
def LenForm (bs : List UInt8) (len : ℕ) : Prop :=
  (∃ c, bs = [c] ∧ c.toNat < 128 ∧ len = c.toNat) ∨
    ∃ b0 b1 b2 b3, bs = [b0, b1, b2, b3] ∧ 128 ≤ b0.toNat ∧
      len = (b0.toNat - 128) * 2 ^ 24 + b1.toNat * 2 ^ 16 + b2.toNat * 2 ^ 8 + b3.toNat

theorem shiftRight_seven_eq_zero_iff (c : UInt8) : c >>> 7 = 0 ↔ c.toNat < 128 := by
  rw [← UInt8.toNat_inj, UInt8.toNat_shiftRight]
  have h := c.toNat_lt
  show c.toNat >>> 7 = 0 ↔ _
  rw [Nat.shiftRight_eq_div_pow]
  omega

theorem toNat_and_0x7f (c : UInt8) (h : 128 ≤ c.toNat) : (c &&& 0x7f).toNat = c.toNat - 128 := by
  have hlt := c.toNat_lt
  rw [UInt8.toNat_and]
  show c.toNat &&& (2 ^ 7 - 1) = _
  rw [Nat.and_two_pow_sub_one_eq_mod]
  omega

theorem LenForm.length_pos {bs : List UInt8} {len : ℕ} (h : LenForm bs len) : 0 < bs.length := by
  rcases h with ⟨c, rfl, -⟩ | ⟨b0, b1, b2, b3, rfl, -⟩
  · exact Nat.zero_lt_one
  · exact Nat.zero_lt_succ 3

theorem LenForm.unique {bs bs' rest rest' : List UInt8} {len len' : ℕ} (h : LenForm bs len)
    (h' : LenForm bs' len') (heq : bs ++ rest = bs' ++ rest') :
    bs = bs' ∧ len = len' ∧ rest = rest' := by
  rcases h with ⟨c, rfl, hc, rfl⟩ | ⟨b0, b1, b2, b3, rfl, hb, rfl⟩ <;>
    rcases h' with ⟨c', rfl, hc', rfl⟩ | ⟨b0', b1', b2', b3', rfl, hb', rfl⟩
  · obtain ⟨rfl, rfl⟩ : c = c' ∧ rest = rest' := by simpa using heq
    exact ⟨rfl, rfl, rfl⟩
  · obtain ⟨rfl, -⟩ : c = b0' ∧ _ := by simpa using heq
    omega
  · obtain ⟨rfl, -⟩ : b0 = c' ∧ _ := by simpa using heq
    omega
  · obtain ⟨rfl, rfl, rfl, rfl, rfl⟩ :
        b0 = b0' ∧ b1 = b1' ∧ b2 = b2' ∧ b3 = b3' ∧ rest = rest' := by simpa using heq
    exact ⟨rfl, rfl, rfl⟩

theorem length_fcgiLenBytes (len : ℕ) : (fcgiLenBytes len).length = fcgiLenSize len := by
  rw [fcgiLenBytes, fcgiLenSize]
  split_ifs <;> rfl

theorem or_0x80 {k : ℕ} (h : k < 256) : k ||| 0x80 = k % 128 + 128 := by
  have hlow : k % 128 ||| 0x80 = k % 128 + 128 := by
    rw [Nat.or_comm, Nat.add_comm]
    exact (Nat.two_pow_add_eq_or_of_lt (i := 7) (Nat.mod_lt _ (Nat.succ_pos _)) 1).symm
  rcases Nat.lt_or_ge k 128 with hk | hk
  · rwa [Nat.mod_eq_of_lt hk] at hlow ⊢
  · have hsplit : k = 0x80 ||| k % 128 := by
      rw [Nat.or_comm, hlow]
      omega
    calc k ||| 0x80 = (k % 128 ||| 0x80) ||| 0x80 := by rw [Nat.or_comm (k % 128), ← hsplit]
      _ = k % 128 + 128 := by rw [Nat.or_assoc, Nat.or_self, hlow]

theorem lenForm_fcgiLenBytes (len : ℕ) : LenForm (fcgiLenBytes len) (len % 2 ^ 31) := by
  have hbyte (k : ℕ) : ((k &&& 0xff : ℕ)) = k % 256 := Nat.and_two_pow_sub_one_eq_mod k 8
  have htop : (len / 2 ^ 24 % 256 ||| 0x80) = len / 2 ^ 24 % 128 + 128 := by
    rw [or_0x80 (Nat.mod_lt _ (Nat.succ_pos _))]
    omega
  have hnat {k : ℕ} (hk : k < 256) : (UInt8.ofNat k).toNat = k := UInt8.toNat_ofNat_of_lt' hk
  rw [fcgiLenBytes, Nat.shiftRight_eq_div_pow]
  split_ifs with h
  · -- one byte
    refine .inl ⟨_, rfl, ?_⟩
    rw [hbyte, hnat (Nat.mod_lt _ (Nat.succ_pos _))]
    omega
  · refine .inr ⟨_, _, _, _, rfl, ?_⟩
    simp only [hbyte, Nat.shiftRight_eq_div_pow, htop]
    have hlt (k : ℕ) : k % 256 < 256 := Nat.mod_lt _ (Nat.succ_pos _)
    rw [hnat (by omega : len / 2 ^ 24 % 128 + 128 < 256), hnat (hlt _), hnat (hlt _), hnat (hlt _)]
    omega

/-! ### What a decoder reads -/

/-- The data of the buffer are `bytes`, byte number `k` stands at `addr k`, and positions
follow each other up to the end of the area. -/
structure Presents (addr : ℕ → ℕ) (b : Buffer) (bytes : List UInt8) : Prop where
  length : bytes.length = b.data
  peek : ∀ k < b.data, b.area[addr k]? = bytes[k]?
  linear : ∀ k i, addr k + i < bSize b → addr (k + i) = addr k + i

theorem presents_bPeekOfs {b : Buffer} (h : b.Valid) : Presents (bPeekOfs b) b b.content where
  length := h.length_content
  peek := by
    intro k hk
    rw [getElem?_content h, if_pos hk]
  linear := by
    intro k i hlt
    have hk := bPeekOfs_cases b k
    have hi := bPeekOfs_cases b (k + i)
    omega

theorem presents_id {b : Buffer} (h : b.data ≤ bSize b) : Presents id b (b.area.take b.data) where
  length := by
    rw [List.length_take]
    exact Nat.min_eq_left h
  peek := by
    intro k hk
    rw [List.getElem?_take_of_lt hk]
    rfl
  linear := by
    intro k i _
    rfl

section Decoding

variable {addr : ℕ → ℕ} {b : Buffer} {c : List UInt8}

theorem Presents.fcgiPeek_eq (h : Presents addr b c) {k : ℕ} (hk : k < b.data) :
    ∃ x, fcgiPeek addr b k = .ok x ∧ c.drop k = x :: c.drop (k + 1) := by
  have hk' : k < c.length := h.length.symm ▸ hk
  refine ⟨_, ?_, List.drop_eq_getElem_cons hk'⟩
  rw [fcgiPeek, h.peek k hk, List.getElem?_eq_getElem hk']

/-- A length is read, or none starts at the offset. -/
theorem Presents.fcgiLen_cases (h : Presents addr b c) (o len : ℕ) :
    (fcgiLen addr b o len = .ok none ∧ ∀ bs n rest, LenForm bs n → c.drop o ≠ bs ++ rest) ∨
      ∃ bs n, LenForm bs n ∧ c.drop o = bs ++ c.drop (o + bs.length) ∧
        fcgiLen addr b o len = .ok (some (n, o + bs.length, len + bs.length)) := by
  have hlen := h.length
  rw [fcgiLen]
  by_cases h0 : b.data < o + 1
  · -- nothing left
    rw [if_pos h0]
    refine .inl ⟨rfl, fun bs n rest hbs heq => ?_⟩
    have hpos := hbs.length_pos
    have := congrArg List.length heq
    rw [List.length_drop, List.length_append] at this
    omega
  rw [if_neg h0]
  obtain ⟨b0, hb0, hd0⟩ := h.fcgiPeek_eq (k := o) (by omega)
  rw [hb0]
  simp only [bind, Except.bind]
  by_cases hs : b0 >>> 7 = 0
  · -- the short form
    have hform : LenForm [b0] b0.toNat :=
      .inl ⟨b0, rfl, (shiftRight_seven_eq_zero_iff b0).mp hs, rfl⟩
    refine .inr ⟨[b0], b0.toNat, hform, hd0, ?_⟩
    rw [if_pos hs]
    rfl
  have hlong : 128 ≤ b0.toNat := by
    rw [shiftRight_seven_eq_zero_iff] at hs
    omega
  simp only [if_neg hs]
  by_cases h3 : b.data < o + 1 + 3
  · rw [if_pos h3]
    refine .inl ⟨rfl, fun bs n rest hbs heq => ?_⟩
    have hl := congrArg List.length heq
    rw [List.length_drop, List.length_append] at hl
    rw [hd0] at heq
    rcases hbs with ⟨c', rfl, hc, -⟩ | ⟨_, _, _, _, rfl, -⟩
    · obtain ⟨rfl, -⟩ : b0 = c' ∧ _ := by simpa using heq
      omega
    · simp only [List.length_cons, List.length_nil] at hl
      omega
  · -- the long form
    obtain ⟨b1, hb1, hd1⟩ := h.fcgiPeek_eq (k := o + 1) (by omega)
    obtain ⟨b2, hb2, hd2⟩ := h.fcgiPeek_eq (k := o + 1 + 1) (by omega)
    obtain ⟨b3, hb3, hd3⟩ := h.fcgiPeek_eq (k := o + 1 + 2) (by omega)
    rw [if_neg h3, hb1, hb2, hb3]
    simp only [Nat.shiftLeft_eq]
    refine .inr ⟨[b0, b1, b2, b3], _, .inr ⟨b0, b1, b2, b3, rfl, hlong, rfl⟩, ?_, ?_⟩
    · rw [hd0, hd1, hd2, hd3]
      rfl
    · rw [← toNat_and_0x7f b0 hlong]
      rfl

/-- **What a decoder returns**: the lengths that stand at the offset, if both together are not
longer than the data of the buffer. -/
theorem Presents.fcgiDecode_iff (h : Presents addr b c) (o : ℕ) (d : FcgiDecoded) :
    fcgiDecode addr b o = .ok (some d) ↔ ∃ hn hv nlen vlen rest, LenForm hn nlen ∧
      LenForm hv vlen ∧ c.drop o = hn ++ (hv ++ rest) ∧ nlen + vlen ≤ b.data ∧
        d = ⟨⟨addr (o + hn.length + hv.length), nlen⟩,
          ⟨addr (o + hn.length + hv.length + nlen), vlen⟩,
          hn.length + hv.length + (nlen + vlen)⟩ := by
  rw [fcgiDecode]
  rcases h.fcgiLen_cases o 0 with ⟨hrun, hno⟩ | ⟨hn, nlen, hform, hdrop, hrun⟩
  · rw [hrun]
    refine iff_of_false (fun h => nomatch h) ?_
    rintro ⟨hn, hv, nlen, vlen, rest, hform, -, heq, -⟩
    exact hno hn nlen _ hform heq
  rw [hrun]
  show (fcgiLen addr b (o + hn.length) (0 + hn.length) >>= _) = _ ↔ _
  rcases h.fcgiLen_cases (o + hn.length) (0 + hn.length) with
    ⟨hrun', hno⟩ | ⟨hv, vlen, hform', hdrop', hrun'⟩
  · rw [hrun']
    refine iff_of_false (fun h => nomatch h) ?_
    rintro ⟨hn', hv, nlen', vlen, rest, hformn, hformv, heq, -⟩
    obtain ⟨rfl, rfl, hrest⟩ := hform.unique hformn (hdrop.symm.trans heq)
    exact hno hv vlen rest hformv hrest
  rw [hrun']
  rw [hdrop'] at hdrop
  show (if b.data < nlen + vlen then _ else _) = _ ↔ _
  split_ifs with hlt
  · refine iff_of_false (fun h => nomatch h) ?_
    rintro ⟨hn', hv', nlen', vlen', rest, hformn, hformv, heq, hle, -⟩
    obtain ⟨rfl, rfl, hrest⟩ := hform.unique hformn (hdrop.symm.trans heq)
    obtain ⟨rfl, rfl, -⟩ := hform'.unique hformv hrest
    omega
  · rw [Nat.zero_add]
    constructor
    · intro heq
      obtain rfl := Option.some.inj (Except.ok.inj heq)
      exact ⟨hn, hv, nlen, vlen, _, hform, hform', hdrop, by omega, rfl⟩
    · rintro ⟨hn', hv', nlen', vlen', rest, hformn, hformv, heq, hle, rfl⟩
      obtain ⟨rfl, rfl, hrest⟩ := hform.unique hformn (hdrop.symm.trans heq)
      obtain ⟨rfl, rfl, -⟩ := hform'.unique hformv hrest
      rfl

/-! ### The returned length -/

/-- The whole parameter lies within the data. -/
def DecodesInside (dec : ℕ → Except Fault (Option FcgiDecoded)) (b : Buffer) (o : ℕ) : Prop :=
  ∀ d, dec o = .ok (some d) → o + d.ret ≤ b.data

/-- At offset `o` of the data `c` stand the lengths of a parameter that is longer than what
follows them, but not longer than all the data. -/
def Overruns (c : List UInt8) (o : ℕ) : Prop :=
  ∃ hn hv nlen vlen rest, LenForm hn nlen ∧ LenForm hv vlen ∧ c.drop o = hn ++ (hv ++ rest) ∧
    rest.length < nlen + vlen ∧ nlen + vlen ≤ c.length

theorem Presents.decodesInside_iff (h : Presents addr b c) (o : ℕ) :
    DecodesInside (fcgiDecode addr b) b o ↔ ¬ Overruns c o := by
  have hlen := h.length
  -- the announced parameter ends where its rest does
  have hend {hn hv rest : List UInt8} {nlen : ℕ} (hform : LenForm hn nlen)
      (heq : c.drop o = hn ++ (hv ++ rest)) :
      o + (hn.length + hv.length) + rest.length = b.data := by
    have hpos := hform.length_pos
    have := congrArg List.length heq
    simp only [List.length_drop, List.length_append] at this
    omega
  constructor
  · rintro hin ⟨hn, hv, nlen, vlen, rest, hformn, hformv, heq, hshort, hle⟩
    have hd := hin _ ((h.fcgiDecode_iff o _).mpr
      ⟨hn, hv, nlen, vlen, rest, hformn, hformv, heq, hlen ▸ hle, rfl⟩)
    have := hend hformn heq
    simp only at hd
    omega
  · intro hno d hd
    obtain ⟨hn, hv, nlen, vlen, rest, hformn, hformv, heq, hle, rfl⟩ := (h.fcgiDecode_iff o d).mp hd
    have := hend hformn heq
    by_contra hout
    refine hno ⟨hn, hv, nlen, vlen, rest, hformn, hformv, heq, ?_, hlen.symm ▸ hle⟩
    simp only at hout
    omega

end Decoding

end SmartHAProxy
