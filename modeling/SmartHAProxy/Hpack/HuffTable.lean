/-
The tables of the Huffman code of HPACK (hpack-huff.c).

`ht` has the code of each symbol, from RFC 7541, appendix B; the last one is EOS.  The
five other tables are indexed with a part of the next 32 bits and give the symbol
whose code these bits begin with.  `huffLookup` chooses the table.

The tables agree with `ht` (`rht_agrees`), and so does the search in them: a symbol
that is found has a code that the bits begin with (`huffLookup_sound`), and a symbol is
found where the bits begin with its code (`huffLookup_complete`), but for the codes of
30 bits: they are found only if the two bits behind them are zero.
-/
import SmartHAProxy.Lib.BitString
import Mathlib.Data.UInt

namespace SmartHAProxy

variable {e : Rht} {t : List Rht} {s code : ℕ}

/-- `struct huff`: a code, and its number of bits. -/
structure Huff where
  c : ℕ
  b : ℕ

/-- `struct rht`: a symbol, and the number of bits of its code. -/
structure Rht where
  c : ℕ
  l : ℕ

/-! ### The tables -/

/-- The code table of RFC 7541, appendix B. -/
def ht : List Huff :=
  [(0x1ff8, 13), (0x7fffd8, 23), (0xfffffe2, 28), (0xfffffe3, 28), (0xfffffe4, 28), (0xfffffe5, 28),
    (0xfffffe6, 28), (0xfffffe7, 28), (0xfffffe8, 28), (0xffffea, 24), (0x3ffffffc, 30),
    (0xfffffe9, 28), (0xfffffea, 28), (0x3ffffffd, 30), (0xfffffeb, 28), (0xfffffec, 28),
    (0xfffffed, 28), (0xfffffee, 28), (0xfffffef, 28), (0xffffff0, 28), (0xffffff1, 28),
    (0xffffff2, 28), (0x3ffffffe, 30), (0xffffff3, 28), (0xffffff4, 28), (0xffffff5, 28),
    (0xffffff6, 28), (0xffffff7, 28), (0xffffff8, 28), (0xffffff9, 28), (0xffffffa, 28),
    (0xffffffb, 28), (0x14, 6), (0x3f8, 10), (0x3f9, 10), (0xffa, 12), (0x1ff9, 13), (0x15, 6),
    (0xf8, 8), (0x7fa, 11), (0x3fa, 10), (0x3fb, 10), (0xf9, 8), (0x7fb, 11), (0xfa, 8), (0x16, 6),
    (0x17, 6), (0x18, 6), (0x0, 5), (0x1, 5), (0x2, 5), (0x19, 6), (0x1a, 6), (0x1b, 6), (0x1c, 6),
    (0x1d, 6), (0x1e, 6), (0x1f, 6), (0x5c, 7), (0xfb, 8), (0x7ffc, 15), (0x20, 6), (0xffb, 12),
    (0x3fc, 10), (0x1ffa, 13), (0x21, 6), (0x5d, 7), (0x5e, 7), (0x5f, 7), (0x60, 7), (0x61, 7),
    (0x62, 7), (0x63, 7), (0x64, 7), (0x65, 7), (0x66, 7), (0x67, 7), (0x68, 7), (0x69, 7),
    (0x6a, 7), (0x6b, 7), (0x6c, 7), (0x6d, 7), (0x6e, 7), (0x6f, 7), (0x70, 7), (0x71, 7),
    (0x72, 7), (0xfc, 8), (0x73, 7), (0xfd, 8), (0x1ffb, 13), (0x7fff0, 19), (0x1ffc, 13),
    (0x3ffc, 14), (0x22, 6), (0x7ffd, 15), (0x3, 5), (0x23, 6), (0x4, 5), (0x24, 6), (0x5, 5),
    (0x25, 6), (0x26, 6), (0x27, 6), (0x6, 5), (0x74, 7), (0x75, 7), (0x28, 6), (0x29, 6),
    (0x2a, 6), (0x7, 5), (0x2b, 6), (0x76, 7), (0x2c, 6), (0x8, 5), (0x9, 5), (0x2d, 6), (0x77, 7),
    (0x78, 7), (0x79, 7), (0x7a, 7), (0x7b, 7), (0x7ffe, 15), (0x7fc, 11), (0x3ffd, 14),
    (0x1ffd, 13), (0xffffffc, 28), (0xfffe6, 20), (0x3fffd2, 22), (0xfffe7, 20), (0xfffe8, 20),
    (0x3fffd3, 22), (0x3fffd4, 22), (0x3fffd5, 22), (0x7fffd9, 23), (0x3fffd6, 22), (0x7fffda, 23),
    (0x7fffdb, 23), (0x7fffdc, 23), (0x7fffdd, 23), (0x7fffde, 23), (0xffffeb, 24), (0x7fffdf, 23),
    (0xffffec, 24), (0xffffed, 24), (0x3fffd7, 22), (0x7fffe0, 23), (0xffffee, 24), (0x7fffe1, 23),
    (0x7fffe2, 23), (0x7fffe3, 23), (0x7fffe4, 23), (0x1fffdc, 21), (0x3fffd8, 22), (0x7fffe5, 23),
    (0x3fffd9, 22), (0x7fffe6, 23), (0x7fffe7, 23), (0xffffef, 24), (0x3fffda, 22), (0x1fffdd, 21),
    (0xfffe9, 20), (0x3fffdb, 22), (0x3fffdc, 22), (0x7fffe8, 23), (0x7fffe9, 23), (0x1fffde, 21),
    (0x7fffea, 23), (0x3fffdd, 22), (0x3fffde, 22), (0xfffff0, 24), (0x1fffdf, 21), (0x3fffdf, 22),
    (0x7fffeb, 23), (0x7fffec, 23), (0x1fffe0, 21), (0x1fffe1, 21), (0x3fffe0, 22), (0x1fffe2, 21),
    (0x7fffed, 23), (0x3fffe1, 22), (0x7fffee, 23), (0x7fffef, 23), (0xfffea, 20), (0x3fffe2, 22),
    (0x3fffe3, 22), (0x3fffe4, 22), (0x7ffff0, 23), (0x3fffe5, 22), (0x3fffe6, 22), (0x7ffff1, 23),
    (0x3ffffe0, 26), (0x3ffffe1, 26), (0xfffeb, 20), (0x7fff1, 19), (0x3fffe7, 22), (0x7ffff2, 23),
    (0x3fffe8, 22), (0x1ffffec, 25), (0x3ffffe2, 26), (0x3ffffe3, 26), (0x3ffffe4, 26),
    (0x7ffffde, 27), (0x7ffffdf, 27), (0x3ffffe5, 26), (0xfffff1, 24), (0x1ffffed, 25),
    (0x7fff2, 19), (0x1fffe3, 21), (0x3ffffe6, 26), (0x7ffffe0, 27), (0x7ffffe1, 27),
    (0x3ffffe7, 26), (0x7ffffe2, 27), (0xfffff2, 24), (0x1fffe4, 21), (0x1fffe5, 21),
    (0x3ffffe8, 26), (0x3ffffe9, 26), (0xffffffd, 28), (0x7ffffe3, 27), (0x7ffffe4, 27),
    (0x7ffffe5, 27), (0xfffec, 20), (0xfffff3, 24), (0xfffed, 20), (0x1fffe6, 21), (0x3fffe9, 22),
    (0x1fffe7, 21), (0x1fffe8, 21), (0x7ffff3, 23), (0x3fffea, 22), (0x3fffeb, 22), (0x1ffffee, 25),
    (0x1ffffef, 25), (0xfffff4, 24), (0xfffff5, 24), (0x3ffffea, 26), (0x7ffff4, 23),
    (0x3ffffeb, 26), (0x7ffffe6, 27), (0x3ffffec, 26), (0x3ffffed, 26), (0x7ffffe7, 27),
    (0x7ffffe8, 27), (0x7ffffe9, 27), (0x7ffffea, 27), (0x7ffffeb, 27), (0xffffffe, 28),
    (0x7ffffec, 27), (0x7ffffed, 27), (0x7ffffee, 27), (0x7ffffef, 27), (0x7fffff0, 27),
    (0x3ffffee, 26), (0x3fffffff, 30)].map fun p => ⟨p.1, p.2⟩

/-- A part of a table: the symbols `cs` have codes of `l` bits, and `n` entries each. -/
def rhtRows (n l : ℕ) (cs : List ℕ) : List Rht := cs.flatMap fun c => List.replicate n ⟨c, l⟩

def rhtBit31_24 : List Rht :=
  rhtRows 8 5 [0x30, 0x31, 0x32, 0x61, 0x63, 0x65, 0x69, 0x6f, 0x73, 0x74] ++
    rhtRows 4 6 [0x20, 0x25, 0x2d, 0x2e, 0x2f, 0x33, 0x34, 0x35, 0x36, 0x37, 0x38, 0x39, 0x3d,
      0x41, 0x5f, 0x62, 0x64, 0x66, 0x67, 0x68, 0x6c, 0x6d, 0x6e, 0x70, 0x72, 0x75] ++
    rhtRows 2 7 [0x3a, 0x42, 0x43, 0x44, 0x45, 0x46, 0x47, 0x48, 0x49, 0x4a, 0x4b, 0x4c, 0x4d,
      0x4e, 0x4f, 0x50, 0x51, 0x52, 0x53, 0x54, 0x55, 0x56, 0x57, 0x59, 0x6a, 0x6b, 0x71, 0x76,
      0x77, 0x78, 0x79, 0x7a] ++
    rhtRows 1 8 [0x26, 0x2a, 0x2c, 0x3b, 0x58, 0x5a]

def rhtBit24_17 : List Rht :=
  rhtRows 32 10 [0x21, 0x22, 0x28, 0x29, 0x3f] ++
    rhtRows 16 11 [0x27, 0x2b, 0x7c] ++
    rhtRows 8 12 [0x23, 0x3e] ++
    rhtRows 4 13 [0x00, 0x24, 0x40, 0x5b, 0x5d, 0x7e] ++
    rhtRows 2 14 [0x5e, 0x7d] ++
    rhtRows 1 15 [0x3c, 0x60, 0x7b]

def rhtBit15_11_fe : List Rht :=
  rhtRows 4 19 [0x5c, 0xc3, 0xd0] ++
    rhtRows 2 20 [0x80, 0x82, 0x83, 0xa2, 0xb8, 0xc2, 0xe0, 0xe2] ++
    rhtRows 1 21 [0x99, 0xa1, 0xa7, 0xac]

def rhtBit15_8 : List Rht :=
  rhtRows 8 21 [0xb0, 0xb1, 0xb3, 0xd1, 0xd8, 0xd9, 0xe3, 0xe5, 0xe6] ++
    rhtRows 4 22 [0x81, 0x84, 0x85, 0x86, 0x88, 0x92, 0x9a, 0x9c, 0xa0, 0xa3, 0xa4, 0xa9, 0xaa,
      0xad, 0xb2, 0xb5, 0xb9, 0xba, 0xbb, 0xbd, 0xbe, 0xc4, 0xc6, 0xe4, 0xe8, 0xe9] ++
    rhtRows 2 23 [0x01, 0x87, 0x89, 0x8a, 0x8b, 0x8c, 0x8d, 0x8f, 0x93, 0x95, 0x96, 0x97, 0x98,
      0x9b, 0x9d, 0x9e, 0xa5, 0xa6, 0xa8, 0xae, 0xaf, 0xb4, 0xb6, 0xb7, 0xbc, 0xbf, 0xc5, 0xe7,
      0xef] ++
    rhtRows 1 24 [0x09, 0x8e, 0x90, 0x91, 0x94, 0x9f, 0xab, 0xce, 0xd7, 0xe1, 0xec, 0xed]

/-- Bits 11 to 4, behind 0xff, 0xff and 0xf6 to 0xff. -/
def rhtBit11_4 : List Rht :=
  List.replicate 96 ⟨0, 0⟩ ++
    rhtRows 8 25 [0xc7, 0xcf, 0xea, 0xeb] ++
    rhtRows 4 26 [0xc0, 0xc1, 0xc8, 0xc9, 0xca, 0xcd, 0xd2, 0xd5, 0xda, 0xdb, 0xee, 0xf0, 0xf2,
      0xf3, 0xff] ++
    rhtRows 2 27 [0xcb, 0xcc, 0xd3, 0xd4, 0xd6, 0xdd, 0xde, 0xdf, 0xf1, 0xf4, 0xf5, 0xf6, 0xf7,
      0xf8, 0xfa, 0xfb, 0xfc, 0xfd, 0xfe] ++
    rhtRows 1 28 [0x02, 0x03, 0x04, 0x05, 0x06, 0x07, 0x08, 0x0b, 0x0c, 0x0e, 0x0f, 0x10, 0x11,
      0x12, 0x13, 0x14, 0x15, 0x17, 0x18, 0x19, 0x1a, 0x1b, 0x1c, 0x1d, 0x1e, 0x1f, 0x7f, 0xdc,
      0xf9] ++
    rhtRows 1 30 [0x0a]

/-- The entry of a table; those that are not given are zero. -/
def rhtAt (t : List Rht) (i : ℕ) : Rht := t.getD i ⟨0, 0⟩

def htAt (s : ℕ) : Huff := ht.getD s ⟨0, 0⟩

/-! ### The search -/

/-- The symbol that the 32 bits `code` begin with, and the number of its bits; none
is the `break` for EOS. -/
def huffLookup (code : ℕ) : Option Rht :=
  if code >>> 24 < 0xfe then some (rhtAt rhtBit31_24 (code >>> 24))
  else if code >>> 17 &&& 0xff < 0xff then some (rhtAt rhtBit24_17 (code >>> 17 &&& 0xff))
  else if code >>> 16 &&& 0xff < 0xff then some (rhtAt rhtBit15_11_fe (code >>> 11 &&& 0x1f))
  else if code >>> 8 &&& 0xff < 0xf6 then some (rhtAt rhtBit15_8 (code >>> 8 &&& 0xff))
  else
    let e := rhtAt rhtBit11_4 (code >>> 4 &&& 0xff)
    if e.l < 30 then some e
    else if code &&& 0xff = 0xf0 then some ⟨10, e.l⟩
    else if code &&& 0xff = 0xf4 then some ⟨13, e.l⟩
    else if code &&& 0xff = 0xf8 then some ⟨22, e.l⟩
    else none

/-! ### The tables agree

The checks are written with the functions on numbers that are evaluated at once. -/

/-- The `n` bits `v` begin with the code of the symbol of an entry. -/
def Rht.agrees (n v : ℕ) (e : Rht) : Bool :=
  Nat.blt 0 e.l && Nat.ble e.l n && Nat.blt e.c 256 && Nat.beq (htAt e.c).b e.l &&
    Nat.beq (htAt e.c).c (v / 2 ^ (n - e.l))

/-- The entries of a table that is indexed with the last bits of `n` bits, the others of
which are `high`; those before `lo` are not used. -/
def tableAgrees (n high width lo hi : ℕ) (t : List Rht) : Bool :=
  Nat.ble hi t.length && Nat.ble hi width &&
    (t.take hi).zipIdx.all fun p => Nat.blt p.2 lo || p.1.agrees n (high * width + p.2)

/-- The entries of a table for the `n` bits that begin with the code of the symbol `s`. -/
def tableHas (n high width lo hi : ℕ) (t : List Rht) (s : ℕ) (h : Huff) : Bool :=
  let v := h.c * 2 ^ (n - h.b)
  Nat.ble h.b n && Nat.beq (v / width) high && Nat.ble lo (v % width) &&
    Nat.ble (v % width + 2 ^ (n - h.b)) hi &&
    ((t.drop (v % width)).take (2 ^ (n - h.b))).all fun e => Nat.beq e.c s && Nat.beq e.l h.b

/-- The code of a symbol is in the table where it is looked for; no code is a string of ones. -/
def symbolAgrees (s : ℕ) (h : Huff) : Bool :=
  Nat.blt 0 h.b && Nat.blt (h.c + 1) (2 ^ h.b) &&
    (tableHas 8 0 256 0 0xfe rhtBit31_24 s h || tableHas 15 127 256 0 0xff rhtBit24_17 s h ||
      tableHas 21 65534 32 0 32 rhtBit15_11_fe s h || tableHas 24 65535 256 0 0xf6 rhtBit15_8 s h ||
      tableHas 28 1048575 256 0x60 0xff rhtBit11_4 s h ||
      Nat.beq h.b 30 && (Nat.beq s 10 && Nat.beq h.c 0x3ffffffc ||
        Nat.beq s 13 && Nat.beq h.c 0x3ffffffd || Nat.beq s 22 && Nat.beq h.c 0x3ffffffe))

/-- All of it: the five tables, the symbols, and the last entry. -/
def tablesAgree : Bool :=
  tableAgrees 8 0 256 0 0xfe rhtBit31_24 && tableAgrees 15 127 256 0 0xff rhtBit24_17 &&
    tableAgrees 21 65534 32 0 32 rhtBit15_11_fe && tableAgrees 24 65535 256 0 0xf6 rhtBit15_8 &&
    tableAgrees 28 1048575 256 0x60 0xff rhtBit11_4 &&
    Nat.beq (rhtAt rhtBit11_4 0xff).l 30 &&
    (ht.take 256).zipIdx.all (fun p => symbolAgrees p.2 p.1) && Nat.beq ht.length 257

theorem rht_agrees : tablesAgree = true := by decide +kernel

/-! ### What the tables say -/

theorem Rht.agrees_iff {n v : ℕ} : e.agrees n v = true ↔
    0 < e.l ∧ e.l ≤ n ∧ e.c < 256 ∧ (htAt e.c).b = e.l ∧ (htAt e.c).c = v / 2 ^ (n - e.l) := by
  simp only [Rht.agrees, Bool.and_eq_true, Nat.blt_eq, Nat.ble_eq, Nat.beq_eq, and_assoc]

theorem rhtAt_eq_getElem {i : ℕ} (h : i < t.length) : rhtAt t i = t[i] := by
  rw [rhtAt, List.getD_eq_getElem?_getD, List.getElem?_eq_getElem h]
  rfl

theorem tableAgrees_at {n high width lo hi i : ℕ} (h : tableAgrees n high width lo hi t = true)
    (hlo : lo ≤ i) (hhi : i < hi) : (rhtAt t i).agrees n (high * width + i) = true := by
  simp only [tableAgrees, Bool.and_eq_true, Nat.ble_eq] at h
  obtain ⟨⟨hlen, -⟩, hall⟩ := h
  have hit : i < t.length := Nat.lt_of_lt_of_le hhi hlen
  have hmem : (rhtAt t i, i) ∈ (t.take hi).zipIdx := by
    rw [List.mk_mem_zipIdx_iff_getElem?, List.getElem?_take_of_lt hhi, List.getElem?_eq_getElem hit,
      rhtAt_eq_getElem hit]
  have hat := List.all_eq_true.mp hall _ hmem
  rcases Bool.or_eq_true_iff.mp hat with hlt | hagr
  · exact absurd (Nat.blt_eq.mp hlt) (Nat.not_lt.mpr hlo)
  · exact hagr

/-- The entries for the words that begin with the code of a symbol. -/
theorem tableHas_at {n high width lo hi v : ℕ} {h : Huff}
    (hhas : tableHas n high width lo hi t s h = true) (hhi : hi ≤ t.length) (hwidth : hi ≤ width)
    (hv : v / 2 ^ (n - h.b) = h.c) :
    h.b ≤ n ∧ v / width = high ∧ lo ≤ v % width ∧ v % width < hi ∧
      rhtAt t (v % width) = ⟨s, h.b⟩ := by
  simp only [tableHas, Bool.and_eq_true, Nat.ble_eq, Nat.beq_eq, List.all_eq_true] at hhas
  obtain ⟨⟨⟨⟨hbn, hhigh⟩, hlo⟩, hend⟩, hall⟩ := hhas
  have hpow : 0 < 2 ^ (n - h.b) := Nat.two_pow_pos _
  generalize 2 ^ (n - h.b) = m at *
  -- `v` is in the block of the words that begin with the code
  obtain ⟨d, hd, rfl⟩ : ∃ d, d < m ∧ v = h.c * m + d := by
    refine ⟨v % m, Nat.mod_lt v hpow, ?_⟩
    rw [← hv, Nat.mul_comm, Nat.div_add_mod]
  have hw : 0 < width := by omega
  have hsum : width * (h.c * m / width) + h.c * m % width = h.c * m := Nat.div_add_mod _ _
  generalize hq : h.c * m / width = q at *
  generalize hr : h.c * m % width = r at *
  have hsplit : h.c * m + d = r + d + width * q := by omega
  have hlt : r + d < width := by omega
  have hdiv : (h.c * m + d) / width = q := by
    rw [hsplit, Nat.add_mul_div_left _ _ hw, Nat.div_eq_of_lt hlt, Nat.zero_add]
  have hmod : (h.c * m + d) % width = r + d := by
    rw [hsplit, Nat.add_mul_mod_self_left, Nat.mod_eq_of_lt hlt]
  refine ⟨hbn, hdiv.trans hhigh, by omega, by omega, ?_⟩
  rw [hmod]
  have hit : r + d < t.length := by omega
  have hmem : t[r + d] ∈ (t.drop r).take m := by
    rw [List.mem_take_iff_getElem]
    refine ⟨d, by rw [List.length_drop]; omega, ?_⟩
    rw [List.getElem_drop]
  obtain ⟨hc, hl⟩ := hall _ hmem
  rw [rhtAt_eq_getElem hit]
  generalize t[r + d] = e at hc hl
  rcases e with ⟨c, l⟩
  rw [← hc, ← hl]

theorem symbolAgrees_at (hs : s < 256) : symbolAgrees s (htAt s) = true := by
  have h := rht_agrees
  simp only [tablesAgree, Bool.and_eq_true, Nat.beq_eq] at h
  obtain ⟨⟨-, hall⟩, hlen⟩ := h
  have hst : s < ht.length := by omega
  refine List.all_eq_true.mp hall (htAt s, s) ?_
  rw [List.mk_mem_zipIdx_iff_getElem?, List.getElem?_take_of_lt hs, List.getElem?_eq_getElem hst,
    htAt, List.getD_eq_getElem?_getD, List.getElem?_eq_getElem hst]
  rfl

theorem ht_pos (hs : s < 256) : 0 < (htAt s).b ∧ (htAt s).c + 1 < 2 ^ (htAt s).b := by
  have h := symbolAgrees_at hs
  simp only [symbolAgrees, Bool.and_eq_true, Nat.blt_eq] at h
  exact h.1

theorem ht_le (hs : s < 256) : (htAt s).b ≤ 30 := by
  have hle {n high width lo hi : ℕ} {t : List Rht} (hn : n ≤ 30)
      (h : tableHas n high width lo hi t s (htAt s) = true) : (htAt s).b ≤ 30 := by
    simp only [tableHas, Bool.and_eq_true, Nat.ble_eq] at h
    exact h.1.1.1.1.trans hn
  have h := symbolAgrees_at hs
  simp only [symbolAgrees, Bool.and_eq_true, Bool.or_eq_true, Nat.beq_eq] at h
  rcases h.2 with ((((h | h) | h) | h) | h) | ⟨hb, -⟩
  · exact hle (by decide) h
  · exact hle (by decide) h
  · exact hle (by decide) h
  · exact hle (by decide) h
  · exact hle (by decide) h
  · exact hb.le

/-! ### The search in the tables -/

theorem land_ff (x : ℕ) : x &&& 0xff = x % 256 := Nat.and_two_pow_sub_one_eq_mod x 8

theorem land_1f (x : ℕ) : x &&& 0x1f = x % 32 := Nat.and_two_pow_sub_one_eq_mod x 5

theorem huffLookup_eq (code : ℕ) : huffLookup code =
    if code / 2 ^ 24 < 0xfe then some (rhtAt rhtBit31_24 (code / 2 ^ 24))
    else if code / 2 ^ 17 % 256 < 0xff then some (rhtAt rhtBit24_17 (code / 2 ^ 17 % 256))
    else if code / 2 ^ 16 % 256 < 0xff then some (rhtAt rhtBit15_11_fe (code / 2 ^ 11 % 32))
    else if code / 2 ^ 8 % 256 < 0xf6 then some (rhtAt rhtBit15_8 (code / 2 ^ 8 % 256))
    else if (rhtAt rhtBit11_4 (code / 2 ^ 4 % 256)).l < 30 then
      some (rhtAt rhtBit11_4 (code / 2 ^ 4 % 256))
    else if code % 256 = 0xf0 then some ⟨10, (rhtAt rhtBit11_4 (code / 2 ^ 4 % 256)).l⟩
    else if code % 256 = 0xf4 then some ⟨13, (rhtAt rhtBit11_4 (code / 2 ^ 4 % 256)).l⟩
    else if code % 256 = 0xf8 then some ⟨22, (rhtAt rhtBit11_4 (code / 2 ^ 4 % 256)).l⟩
    else none := by
  simp only [huffLookup, land_ff, land_1f, Nat.shiftRight_eq_div_pow]

/-- The 32 bits begin with the code of a symbol, as an entry says. -/
structure Begins (code : ℕ) (e : Rht) : Prop where
  pos : 0 < e.l
  le : e.l ≤ 30
  lt : e.c < 256
  len : (htAt e.c).b = e.l
  code : (htAt e.c).c = code / 2 ^ (32 - e.l)

theorem Rht.begins {n high width i : ℕ} (h : e.agrees n (high * width + i) = true) (hn : n ≤ 30)
    (hcode : high * width + i = code / 2 ^ (32 - n)) : Begins code e := by
  obtain ⟨hpos, hle, hlt, hlen, hc⟩ := Rht.agrees_iff.mp h
  refine ⟨hpos, hle.trans hn, hlt, hlen, ?_⟩
  rw [hc, hcode, Nat.div_div_eq_div_mul, ← pow_add]
  congr 2
  omega

/-- **What is found begins the word.** -/
theorem huffLookup_sound (hcode : code < 2 ^ 32) (h : huffLookup code = some e) :
    Begins code e := by
  have htables := rht_agrees
  simp only [tablesAgree, Bool.and_eq_true, Nat.beq_eq] at htables
  obtain ⟨⟨⟨⟨⟨⟨⟨h₁, h₂⟩, h₃⟩, h₄⟩, h₅⟩, hlast⟩, -⟩, -⟩ := htables
  rw [huffLookup_eq] at h
  by_cases c₁ : code / 2 ^ 24 < 0xfe
  · rw [if_pos c₁] at h
    obtain rfl := Option.some.inj h
    exact Rht.begins (tableAgrees_at h₁ (Nat.zero_le _) c₁) (by decide) (by omega)
  rw [if_neg c₁] at h
  by_cases c₂ : code / 2 ^ 17 % 256 < 0xff
  · rw [if_pos c₂] at h
    obtain rfl := Option.some.inj h
    exact Rht.begins (tableAgrees_at h₂ (Nat.zero_le _) c₂) (by decide) (by omega)
  rw [if_neg c₂] at h
  by_cases c₃ : code / 2 ^ 16 % 256 < 0xff
  · rw [if_pos c₃] at h
    obtain rfl := Option.some.inj h
    have hi : code / 2 ^ 11 % 32 < 32 := Nat.mod_lt _ (by decide)
    exact Rht.begins (tableAgrees_at h₃ (Nat.zero_le _) hi) (by decide) (by omega)
  rw [if_neg c₃] at h
  by_cases c₄ : code / 2 ^ 8 % 256 < 0xf6
  · rw [if_pos c₄] at h
    obtain rfl := Option.some.inj h
    exact Rht.begins (tableAgrees_at h₄ (Nat.zero_le _) c₄) (by decide) (by omega)
  rw [if_neg c₄] at h
  by_cases c₅ : code / 2 ^ 4 % 256 < 0xff
  · have hagr := tableAgrees_at h₅ (i := code / 2 ^ 4 % 256) (by omega) c₅
    have hle := (Rht.agrees_iff.mp hagr).2.1
    rw [if_pos (by omega)] at h
    obtain rfl := Option.some.inj h
    exact Rht.begins hagr (by decide) (by omega)
  · -- the codes of 30 bits
    have hindex : code / 2 ^ 4 % 256 = 0xff := by omega
    rw [hindex, hlast, if_neg (by decide)] at h
    split_ifs at h with c₆ c₇ c₈
    · obtain rfl := Option.some.inj h
      exact ⟨by decide, by decide, by decide, rfl, (show 0x3ffffffc = code / 2 ^ 2 by omega)⟩
    · obtain rfl := Option.some.inj h
      exact ⟨by decide, by decide, by decide, rfl, (show 0x3ffffffd = code / 2 ^ 2 by omega)⟩
    · obtain rfl := Option.some.inj h
      exact ⟨by decide, by decide, by decide, rfl, (show 0x3ffffffe = code / 2 ^ 2 by omega)⟩

/-- **What begins the word is found**, unless its code has 30 bits and one of the two
bits behind it is set. -/
theorem huffLookup_complete (hs : s < 256) (hbegin : code / 2 ^ (32 - (htAt s).b) = (htAt s).c)
    (hbits : (htAt s).b = 30 → code % 4 = 0) : huffLookup code = some ⟨s, (htAt s).b⟩ := by
  have htables := rht_agrees
  simp only [tablesAgree, tableAgrees, Bool.and_eq_true, Nat.beq_eq, Nat.ble_eq] at htables
  obtain ⟨⟨⟨⟨⟨⟨⟨h₁, h₂⟩, h₃⟩, h₄⟩, h₅⟩, hlast⟩, -⟩, -⟩ := htables
  have hsym := symbolAgrees_at hs
  simp only [symbolAgrees, Bool.and_eq_true, Bool.or_eq_true, Nat.beq_eq] at hsym
  -- the first `n` bits of the word begin with the code, too
  have hfirst {n : ℕ} (hn : n ≤ 32) (hbn : (htAt s).b ≤ n) :
      code / 2 ^ (32 - n) / 2 ^ (n - (htAt s).b) = (htAt s).c := by
    rw [Nat.div_div_eq_div_mul, ← pow_add, ← hbegin]
    congr 2
    omega
  have hle {n high width lo hi : ℕ} {t : List Rht}
      (h : tableHas n high width lo hi t s (htAt s) = true) : (htAt s).b ≤ n := by
    simp only [tableHas, Bool.and_eq_true, Nat.ble_eq] at h
    exact h.1.1.1.1
  rw [huffLookup_eq]
  rcases hsym.2 with ((((h | h) | h) | h) | h) | ⟨hb, h⟩
  · obtain ⟨-, hhigh, -, hlt, hat⟩ := tableHas_at h h₁.1.1 h₁.1.2 (hfirst (by decide) (hle h))
    have hmod : code / 2 ^ 24 % 256 = code / 2 ^ 24 := by omega
    rw [hmod] at hlt hat
    rw [if_pos hlt, hat]
  · obtain ⟨-, hhigh, -, hlt, hat⟩ := tableHas_at h h₂.1.1 h₂.1.2 (hfirst (by decide) (hle h))
    rw [if_neg (by omega), if_pos hlt, hat]
  · obtain ⟨-, hhigh, -, hlt, hat⟩ := tableHas_at h h₃.1.1 h₃.1.2 (hfirst (by decide) (hle h))
    rw [if_neg (by omega), if_neg (by omega), if_pos (by omega), hat]
  · obtain ⟨-, hhigh, -, hlt, hat⟩ := tableHas_at h h₄.1.1 h₄.1.2 (hfirst (by decide) (hle h))
    rw [if_neg (by omega), if_neg (by omega), if_neg (by omega), if_pos hlt, hat]
  · obtain ⟨-, hhigh, hlo, hlt, hat⟩ := tableHas_at h h₅.1.1 h₅.1.2 (hfirst (by decide) (hle h))
    have hlt30 : (⟨s, (htAt s).b⟩ : Rht).l < 30 := Nat.lt_of_le_of_lt (hle h) (by decide)
    rw [if_neg (by omega), if_neg (by omega), if_neg (by omega), if_neg (by omega), hat,
      if_pos hlt30]
  · have h4 := hbits hb
    rw [hb] at hbegin ⊢
    have hindex : code / 2 ^ 4 % 256 = 0xff := by omega
    rw [if_neg (by omega), if_neg (by omega), if_neg (by omega), if_neg (by omega), hindex, hlast,
      if_neg (by decide)]
    rcases h with (⟨rfl, hc⟩ | ⟨rfl, hc⟩) | ⟨rfl, hc⟩
    · rw [if_pos (by omega)]
    · rw [if_neg (by omega), if_pos (by omega)]
    · rw [if_neg (by omega), if_neg (by omega), if_pos (by omega)]

theorem huffLookup_lost (hcode : code < 2 ^ 32) (hs : s < 256)
    (hbegin : code / 2 ^ (32 - (htAt s).b) = (htAt s).c) (hb : (htAt s).b = 30)
    (hbits : code % 4 ≠ 0) : huffLookup code = none := by
  have htables := rht_agrees
  simp only [tablesAgree, Bool.and_eq_true, Nat.beq_eq] at htables
  have hlast := htables.1.1.2
  have hsym := symbolAgrees_at hs
  simp only [symbolAgrees, Bool.and_eq_true, Bool.or_eq_true, Nat.beq_eq] at hsym
  rw [hb] at hbegin
  have hc : 0x3ffffffc ≤ (htAt s).c := by
    rcases hsym.2 with ((((h | h) | h) | h) | h) | ⟨-, h⟩
    all_goals try
      simp only [tableHas, Bool.and_eq_true, Nat.ble_eq] at h
      have hle := h.1.1.1.1
      omega
    rcases h with (⟨-, hc⟩ | ⟨-, hc⟩) | ⟨-, hc⟩ <;> omega
  have hindex : code / 2 ^ 4 % 256 = 0xff := by omega
  rw [huffLookup_eq, if_neg (by omega), if_neg (by omega), if_neg (by omega), if_neg (by omega),
    hindex, hlast, if_neg (by decide), if_neg (by omega), if_neg (by omega), if_neg (by omega)]

end SmartHAProxy
