/-
The chunked coding of HTTP/1 (haproxy/h1.h): `h1_parse_chunk_size` and
`h1_skip_chunk_crlf`.

Both read a ring buffer from position `start` to position `stop`, counted from
its head, with a pointer that is sent back to the start of the area when it
reaches its end.  A pointer is its offset in the area.  A loop of the code is a
recursion on the number of bytes left (`stop` in the code).

The pointer stands at the byte of the content that has the same number
(`bNext_peek`), so that the loops scan the content, wherever it wraps: a chunk
size is what `ChunkLine` says (`h1ParseChunkSize_exact`).
-/
import SmartHAProxy.Buf.Content
import SmartHAProxy.Http.Basic
import SmartHAProxy.Lib.Scan
import Mathlib.Data.Nat.Bitwise

namespace SmartHAProxy

/-! ### Characters -/

def httpIsSpht (c : UInt8) : Bool := c == 9 || c == 32

def httpIsCrlf (c : UInt8) : Bool := c == 10 || c == 13

def hex2i (c : UInt8) : ℤ :=
  if 48 ≤ c ∧ c ≤ 57 then c.toNat - 48
  else if 65 ≤ c ∧ c ≤ 70 then c.toNat - 55
  else if 97 ≤ c ∧ c ≤ 102 then c.toNat - 87
  else -1

/-! ### Reading with a pointer -/

/-- `*ptr`. -/
def bByte (b : Buffer) (ptr : ℕ) : Except Fault UInt8 :=
  match b.area[ptr]? with
  | some c => .ok c
  | none => .error .outOfBounds

/-- `if (++ptr >= b_wrap(buf)) ptr = b_orig(buf)`. -/
def bNext (b : Buffer) (ptr : ℕ) : ℕ := if ptr + 1 ≥ bSize b then 0 else ptr + 1

/-! ### `h1_skip_chunk_crlf` -/

def h1SkipChunkCrlf (b : Buffer) (start stop : ℕ) : Except Fault ℤ :=
  if stop ≤ start then .ok 0
  else do
    let ptr := bPeekOfs b start
    let c ← bByte b ptr
    let bytes := if c = 13 then 2 else 1
    let ptr := if c = 13 then bNext b ptr else ptr
    if bytes > stop - start then pure 0
    else do
      let c ← bByte b ptr
      -- negative position to stop
      if c ≠ 10 then pure ((ptr : ℤ) - (b.head + stop : ℕ))
      else pure bytes

/-! ### `h1_parse_chunk_size` -/

/-- The loop for the end of the line; `ext` in the inner loop for an extension. -/
def chunkLineEnd (b : Buffer) (ext : Bool) : ℕ → ℕ → Except Fault (ScanEnd Unit)
  | 0, _ => .ok .short
  | left + 1, ptr => do
    let c ← bByte b ptr
    if httpIsCrlf c then
      if c = 13 then
        if left = 0 then pure .short
        else do
          let c ← bByte b (bNext b ptr)
          if c ≠ 10 then pure (.error left) else pure (.done (left - 1) ())
      else pure (.done left ())
    else if ext then chunkLineEnd b true left (bNext b ptr)
    else if c = 59 then chunkLineEnd b true left (bNext b ptr)
    else pure (.error (left + 1))

def chunkBlanks (b : Buffer) : ℕ → ℕ → Except Fault (ScanEnd Unit)
  | 0, _ => .ok .short
  | left + 1, ptr => do
    let c ← bByte b ptr
    if httpIsSpht c then chunkBlanks b left (bNext b ptr)
    else chunkLineEnd b false (left + 1) ptr

/-- The loop for the digits, and what comes after them. -/
def chunkDigits (b : Buffer) (ptrOld : ℕ) (chunk : UInt64) :
    ℕ → ℕ → Except Fault (ScanEnd UInt64)
  | 0, _ => .ok .short
  | left + 1, ptr => do
    let c ← bByte b ptr
    if hex2i c < 0 then
      -- empty size not allowed
      if ptr = ptrOld then pure (.error (left + 1))
      else do
        let r ← chunkBlanks b (left + 1) ptr
        pure (r.map fun _ => chunk)
    else
      let chunk := (chunk <<< 4) + UInt64.ofNat (hex2i c).toNat
      if chunk &&& 0xF0000000000000 ≠ 0 then pure (.error (left + 1))
      else chunkDigits b ptrOld chunk left (bNext b ptr)

/-- The return value, with `left` bytes to read at the start, and what is stored in `*res`. -/
def chunkSizeReturn (left : ℕ) : ScanEnd UInt64 → ℤ × Option UInt64
  | .short => (0, none)
  | .error stop => (-stop, some 0)
  | .done stop chunk => (left - stop, some chunk)

def h1ParseChunkSize (b : Buffer) (start stop : ℕ) : Except Fault (ℤ × Option UInt64) := do
  let left := stop - start
  let r ← chunkDigits b (bPeekOfs b start) 0 left (bPeekOfs b start)
  pure (chunkSizeReturn left r)

/-! ### The pointer and the content -/

section Pointer

variable {b : Buffer}

theorem bNext_peek (hb : b.Valid) {k : ℕ} (hk : k + 1 < b.data) :
    bNext b (bPeekOfs b k) = bPeekOfs b (k + 1) := by
  have hhead := hb.head_le
  have hdata := hb.data_le
  rw [bNext]
  rcases bPeekOfs_cases b k with ⟨hw, hpeek⟩ | ⟨hw, hpeek⟩ <;>
    rcases bPeekOfs_cases b (k + 1) with ⟨hw', hpeek'⟩ | ⟨hw', hpeek'⟩
  all_goals
    rw [hpeek, hpeek']
    split_ifs
    all_goals omega

theorem bPeekOfs_inj (hb : b.Valid) {j k : ℕ} (hj : j < b.data) (hk : k < b.data)
    (h : bPeekOfs b j = bPeekOfs b k) : j = k := by
  have hhead := hb.head_le
  have hdata := hb.data_le
  rcases bPeekOfs_cases b j with ⟨hw, hpeek⟩ | ⟨hw, hpeek⟩ <;>
    rcases bPeekOfs_cases b k with ⟨hw', hpeek'⟩ | ⟨hw', hpeek'⟩
  all_goals
    rw [hpeek, hpeek'] at h
    omega

/-- The bytes from a position of the content on. -/
def Buffer.window (b : Buffer) (k left : ℕ) : List UInt8 := (b.content.drop k).take left

theorem window_succ (hb : b.Valid) (k left : ℕ) (hk : k + (left + 1) ≤ b.data) :
    ∃ c, bByte b (bPeekOfs b k) = .ok c ∧ b.window k (left + 1) = c :: b.window (k + 1) left := by
  have hlen := hb.length_content
  have hlt : k < b.content.length := by omega
  have hget := getElem?_content hb k
  rw [if_pos (show k < b.data by omega), List.getElem?_eq_getElem hlt] at hget
  refine ⟨b.content[k], ?_, ?_⟩
  · rw [bByte, ← hget]
  · rw [Buffer.window, List.drop_eq_getElem_cons hlt, List.take_succ_cons]
    rfl

theorem window_zero (b : Buffer) (k : ℕ) : b.window k 0 = [] := List.take_zero

theorem length_window (hb : b.Valid) {k left : ℕ} (hk : k + left ≤ b.data) :
    (b.window k left).length = left := by
  have hlen := hb.length_content
  rw [Buffer.window, List.length_take, List.length_drop]
  omega

end Pointer

/-! ### Formats -/

/-- What ends the line of a chunk: an extension, then a line feed, perhaps after a
carriage return; `ext` inside the extension. -/
def ChunkLineEnd (ext : Bool) : Format UInt8 Unit := fun _ l =>
  ∃ t e, l = t ++ e ∧ (∀ c ∈ t, httpIsCrlf c = false) ∧ (e = [10] ∨ e = [13, 10]) ∧
    (ext = true ∨ t = [] ∨ ∃ t', t = 59 :: t')

def ChunkBlanks : Format UInt8 Unit := fun _ l =>
  ∃ blanks rest, l = blanks ++ rest ∧ (∀ c ∈ blanks, httpIsSpht c = true) ∧
    ChunkLineEnd false () rest

/-- The value of hexadecimal digits that come after the value `a`. -/
def hexValue (a : ℕ) (digits : List UInt8) : ℕ :=
  digits.foldl (fun v c => 16 * v + (hex2i c).toNat) a

/-- Digits that come after the value `a`, and the rest of the line; `some` if there were
digits already. -/
def ChunkDigits (a : ℕ) (some : Bool) : Format UInt8 ℕ := fun v l =>
  ∃ digits rest, l = digits ++ rest ∧ (some = true ∨ digits ≠ []) ∧ (∀ c ∈ digits, 0 ≤ hex2i c) ∧
    hexValue a digits = v ∧ v < 2 ^ 52 ∧ ChunkBlanks () rest

section Formats

variable {ext some : Bool} {c : UInt8} {l : List UInt8} {u : Unit} {a v : ℕ}

theorem crlf_cases (h : httpIsCrlf c = true) : c = 10 ∨ c = 13 := by
  rw [httpIsCrlf, Bool.or_eq_true, beq_iff_eq, beq_iff_eq] at h
  exact h

theorem extends_chunkLineEnd : Extends (ChunkLineEnd ext) [] :=
  ⟨(), [10], List.cons_ne_nil _ _, [], [10], rfl, fun _ h => absurd h List.not_mem_nil, .inl rfl,
    .inr (.inl rfl)⟩

theorem chunkLineEnd_lf : ChunkLineEnd ext u (10 :: l) ↔ l = [] := by
  constructor
  · rintro ⟨t, e, heq, ht, he, -⟩
    rcases t with - | ⟨d, t⟩
    · rw [List.nil_append] at heq
      rcases he with rfl | rfl
      · exact (List.cons.inj heq).2
      · exact absurd (List.cons.inj heq).1 (by decide)
    · obtain ⟨rfl, -⟩ := List.cons.inj heq
      exact absurd (ht 10 List.mem_cons_self) (by decide)
  · rintro rfl
    exact ⟨[], [10], rfl, fun _ h => absurd h List.not_mem_nil, .inl rfl, .inr (.inl rfl)⟩

theorem chunkLineEnd_cr : ChunkLineEnd ext u (13 :: l) ↔ l = [10] := by
  constructor
  · rintro ⟨t, e, heq, ht, he, -⟩
    rcases t with - | ⟨d, t⟩
    · rw [List.nil_append] at heq
      rcases he with rfl | rfl
      · exact absurd (List.cons.inj heq).1 (by decide)
      · exact (List.cons.inj heq).2
    · obtain ⟨rfl, -⟩ := List.cons.inj heq
      exact absurd (ht 13 List.mem_cons_self) (by decide)
  · rintro rfl
    exact ⟨[], [13, 10], rfl, fun _ h => absurd h List.not_mem_nil, .inr rfl, .inr (.inl rfl)⟩

theorem chunkLineEnd_ext (hc : httpIsCrlf c = false) (hext : ext = true ∨ c = 59) :
    ChunkLineEnd ext u (c :: l) ↔ ChunkLineEnd true u l := by
  constructor
  · rintro ⟨t, e, heq, ht, he, -⟩
    rcases t with - | ⟨d, t⟩
    · rw [List.nil_append] at heq
      rcases he with rfl | rfl
      · rw [(List.cons.inj heq).1] at hc
        exact absurd hc (by decide)
      · rw [(List.cons.inj heq).1] at hc
        exact absurd hc (by decide)
    · obtain ⟨rfl, rfl⟩ := List.cons.inj heq
      exact ⟨t, e, rfl, fun d hd => ht d (List.mem_cons_of_mem _ hd), he, .inl rfl⟩
  · rintro ⟨t, e, rfl, ht, he, -⟩
    refine ⟨c :: t, e, rfl, fun d hd => ?_, he, hext.imp_right fun h => .inr ⟨t, by rw [h]⟩⟩
    rcases List.mem_cons.mp hd with rfl | hd
    · exact hc
    · exact ht d hd

theorem chunkLineEnd_stuck (hc : httpIsCrlf c = false) (hsemi : c ≠ 59) :
    ¬ChunkLineEnd false u (c :: l) := by
  rintro ⟨t, e, heq, -, he, hext⟩
  rcases hext with hext | rfl | ⟨t', rfl⟩
  · exact absurd hext Bool.false_ne_true
  · rw [List.nil_append] at heq
    rcases he with rfl | rfl
    · rw [(List.cons.inj heq).1] at hc
      exact absurd hc (by decide)
    · rw [(List.cons.inj heq).1] at hc
      exact absurd hc (by decide)
  · exact hsemi (List.cons.inj heq).1

theorem chunkLineEnd_ne_nil : ¬ChunkLineEnd ext u [] := by
  rintro ⟨t, e, heq, -, he, -⟩
  obtain ⟨-, rfl⟩ := List.append_eq_nil_iff.mp heq.symm
  rcases he with he | he <;> cases he

theorem extends_chunkBlanks : Extends ChunkBlanks [] := by
  obtain ⟨u, l, hne, hl⟩ : Extends (ChunkLineEnd false) [] := extends_chunkLineEnd
  exact ⟨u, l, hne, [], l, rfl, fun _ h => absurd h List.not_mem_nil, hl⟩

theorem chunkLineEnd_first (h : ChunkLineEnd false u (c :: l)) : c = 10 ∨ c = 13 ∨ c = 59 := by
  rcases hcrlf : httpIsCrlf c with - | -
  · by_contra hne
    rw [not_or, not_or] at hne
    exact chunkLineEnd_stuck hcrlf hne.2.2 h
  · exact (crlf_cases hcrlf).imp_right .inl

theorem chunkBlanks_blank (hc : httpIsSpht c = true) :
    ChunkBlanks u (c :: l) ↔ ChunkBlanks u l := by
  constructor
  · rintro ⟨blanks, rest, heq, hblanks, hrest⟩
    rcases blanks with - | ⟨d, blanks⟩
    · rw [List.nil_append] at heq
      rw [← heq] at hrest
      rcases chunkLineEnd_first hrest with rfl | rfl | rfl
      · exact absurd hc (by decide)
      · exact absurd hc (by decide)
      · exact absurd hc (by decide)
    · obtain ⟨rfl, rfl⟩ := List.cons.inj heq
      exact ⟨blanks, rest, rfl, fun d hd => hblanks d (List.mem_cons_of_mem _ hd), hrest⟩
  · rintro ⟨blanks, rest, rfl, hblanks, hrest⟩
    refine ⟨c :: blanks, rest, rfl, fun d hd => ?_, hrest⟩
    rcases List.mem_cons.mp hd with rfl | hd
    · exact hc
    · exact hblanks d hd

theorem chunkBlanks_end (hc : httpIsSpht c = false) :
    ChunkBlanks u (c :: l) ↔ ChunkLineEnd false u (c :: l) := by
  constructor
  · rintro ⟨blanks, rest, heq, hblanks, hrest⟩
    rcases blanks with - | ⟨d, blanks⟩
    · rw [List.nil_append] at heq
      rwa [heq]
    · rw [(List.cons.inj heq).1, hblanks d List.mem_cons_self] at hc
      exact absurd hc.symm Bool.false_ne_true
  · exact fun h => ⟨[], c :: l, rfl, fun _ h => absurd h List.not_mem_nil, h⟩

theorem chunkBlanks_first (h : ChunkBlanks u (c :: l)) : hex2i c < 0 := by
  rcases hspht : httpIsSpht c with - | -
  · rcases chunkLineEnd_first ((chunkBlanks_end hspht).mp h) with rfl | rfl | rfl <;> decide
  · rw [httpIsSpht, Bool.or_eq_true, beq_iff_eq, beq_iff_eq] at hspht
    rcases hspht with rfl | rfl <;> decide

theorem le_hexValue (a : ℕ) (digits : List UInt8) : a ≤ hexValue a digits := by
  induction digits generalizing a with
  | nil => exact Nat.le_refl a
  | cons c digits ih =>
    refine Nat.le_trans ?_ (ih (16 * a + (hex2i c).toNat))
    omega

theorem chunkDigits_digit (hc : 0 ≤ hex2i c) :
    ChunkDigits a some v (c :: l) ↔ ChunkDigits (16 * a + (hex2i c).toNat) true v l := by
  constructor
  · rintro ⟨digits, rest, heq, -, hdigits, hv, hlt, hrest⟩
    rcases digits with - | ⟨d, digits⟩
    · rw [List.nil_append] at heq
      rw [← heq] at hrest
      exact absurd (chunkBlanks_first hrest) (Int.not_lt.mpr hc)
    · obtain ⟨rfl, rfl⟩ := List.cons.inj heq
      exact ⟨digits, rest, rfl, .inl rfl, fun d hd => hdigits d (List.mem_cons_of_mem _ hd), hv,
        hlt, hrest⟩
  · rintro ⟨digits, rest, rfl, -, hdigits, hv, hlt, hrest⟩
    refine ⟨c :: digits, rest, rfl, .inr (List.cons_ne_nil _ _), fun d hd => ?_, hv, hlt, hrest⟩
    rcases List.mem_cons.mp hd with rfl | hd
    · exact hc
    · exact hdigits d hd

theorem chunkDigits_large (ha : 2 ^ 52 ≤ a) : ¬ChunkDigits a some v l := by
  rintro ⟨digits, rest, -, -, -, hv, hlt, -⟩
  have := le_hexValue a digits
  omega

theorem chunkDigits_end (hc : hex2i c < 0) (ha : a < 2 ^ 52) :
    ChunkDigits a true v (c :: l) ↔ ∃ u, a = v ∧ ChunkBlanks u (c :: l) := by
  constructor
  · rintro ⟨digits, rest, heq, -, hdigits, hv, -, hrest⟩
    rcases digits with - | ⟨d, digits⟩
    · rw [List.nil_append] at heq
      exact ⟨(), hv, heq ▸ hrest⟩
    · rw [(List.cons.inj heq).1] at hc
      exact absurd hc (Int.not_lt.mpr (hdigits d List.mem_cons_self))
  · rintro ⟨u, rfl, h⟩
    exact ⟨[], c :: l, rfl, .inl rfl, fun _ h => absurd h List.not_mem_nil, rfl, ha, h⟩

theorem chunkDigits_none (hc : hex2i c < 0) : ¬ChunkDigits a false v (c :: l) := by
  rintro ⟨digits, rest, heq, hsome, hdigits, -⟩
  rcases digits with - | ⟨d, digits⟩
  · exact hsome.elim Bool.false_ne_true fun h => h rfl
  · rw [(List.cons.inj heq).1] at hc
    exact absurd hc (Int.not_lt.mpr (hdigits d List.mem_cons_self))

theorem extends_chunkDigits (ha : a < 2 ^ 52) (hsome : some = true ∨ a = 0) :
    Extends (ChunkDigits a some) [] := by
  obtain ⟨u, l, hne, hl⟩ := extends_chunkBlanks
  rcases hsome with rfl | rfl
  · exact ⟨a, l, hne, [], l, rfl, .inl rfl, fun _ h => absurd h List.not_mem_nil, rfl, ha, hl⟩
  · refine ⟨0, 48 :: l, List.cons_ne_nil _ _, [48], l, rfl, .inr (List.cons_ne_nil _ _), ?_, rfl,
      by decide, hl⟩
    intro c hc
    rw [List.mem_singleton.mp hc]
    decide

end Formats

/-! ### The loops scan the content -/

theorem chunk_mask {x : UInt64} (hx : x.toNat < 2 ^ 56) :
    x &&& 0xF0000000000000 ≠ 0 ↔ 2 ^ 52 ≤ x.toNat := by
  have hmask : (0xF0000000000000 : UInt64).toNat = 15 <<< 52 := rfl
  have hzero : x &&& 0xF0000000000000 = 0 ↔ (x.toNat >>> 52) &&& 15 = 0 := by
    rw [← UInt64.toNat_inj, UInt64.toNat_and, hmask, show UInt64.toNat 0 = 0 from rfl]
    constructor
    · intro h
      have hs := congrArg (· >>> 52) h
      simpa [Nat.shiftRight_and_distrib] using hs
    · intro h
      apply Nat.eq_of_testBit_eq
      intro j
      rw [Nat.testBit_and, Nat.testBit_shiftLeft, Nat.zero_testBit]
      by_cases hj : j ≥ 52
      · have hb := congrArg (·.testBit (j - 52)) h
        simp only [Nat.testBit_and, Nat.testBit_shiftRight, Nat.zero_testBit] at hb
        rw [Nat.add_sub_cancel' hj] at hb
        rw [decide_eq_true hj, Bool.true_and, hb]
      · rw [decide_eq_false hj, Bool.false_and, Bool.and_false]
  rw [ne_eq, hzero, show (15 : ℕ) = 2 ^ 4 - 1 from rfl, Nat.and_two_pow_sub_one_eq_mod,
    Nat.shiftRight_eq_div_pow]
  omega

section Loops

variable {b : Buffer}

theorem chunkLineEnd_spec (hb : b.Valid) (left : ℕ) {k ptr : ℕ} (ext : Bool)
    (hk : k + left ≤ b.data) (hptr : 0 < left → ptr = bPeekOfs b k) :
    ∃ r, chunkLineEnd b ext left ptr = .ok r ∧ Scans (ChunkLineEnd ext) (b.window k left) r := by
  induction left generalizing k ptr ext with
  | zero => exact ⟨.short, rfl, window_zero b k ▸ extends_chunkLineEnd⟩
  | succ left ih =>
    obtain ⟨c, hbyte, hwindow⟩ := window_succ hb k left hk
    obtain rfl := hptr (Nat.succ_pos left)
    have hnext : 0 < left → bNext b (bPeekOfs b k) = bPeekOfs b (k + 1) :=
      fun hleft => bNext_peek hb (by omega)
    have hrec (hc : httpIsCrlf c = false) (hext : ext = true ∨ c = 59) :
        ∃ r, chunkLineEnd b true left (bNext b (bPeekOfs b k)) = .ok r ∧
          Scans (ChunkLineEnd ext) (b.window k (left + 1)) r := by
      obtain ⟨r, hr, hscan⟩ := ih true (by omega) hnext
      exact ⟨r, hr, hwindow ▸ hscan.cons fun _ _ => chunkLineEnd_ext hc hext⟩
    rw [chunkLineEnd, hbyte]
    show ∃ r, (if httpIsCrlf c = true then _ else _) = _ ∧ _
    by_cases hcrlf : httpIsCrlf c = true
    · rw [if_pos hcrlf, hwindow]
      by_cases hcr : c = 13
      · subst hcr
        rw [if_pos rfl]
        rcases left with - | left
        · -- a carriage return at the end of the data
          rw [if_pos rfl, window_zero]
          refine ⟨.short, rfl, Scans.cons (fun _ _ => chunkLineEnd_cr) ?_⟩
          exact ⟨(), [10], List.cons_ne_nil _ _, rfl⟩
        · obtain ⟨d, hbyte', hwindow'⟩ := window_succ hb (k + 1) left (by omega)
          rw [if_neg (Nat.succ_ne_zero left), hnext (Nat.succ_pos left), hbyte', hwindow']
          show ∃ r, (if d ≠ 10 then _ else _) = _ ∧ _
          have hrest : (b.window (k + 1 + 1) left).length = left := length_window hb (by omega)
          by_cases hlf : d = 10
          · rw [if_neg (not_not.mpr hlf), hlf]
            refine ⟨_, rfl, Scans.cons (fun _ _ => chunkLineEnd_cr) ?_⟩
            exact ⟨[10], b.window (k + 1 + 1) left, rfl, hrest.symm, rfl⟩
          · rw [if_pos hlf]
            refine ⟨_, rfl, Scans.cons (fun _ _ => chunkLineEnd_cr) ?_⟩
            refine ⟨[], d, b.window (k + 1 + 1) left, rfl, by rw [hrest],
              ⟨(), [10], List.cons_ne_nil _ _, rfl⟩, fun _ l hl => hlf (List.cons.inj hl).1⟩
      · rw [if_neg hcr]
        obtain rfl := (crlf_cases hcrlf).resolve_right hcr
        refine ⟨_, rfl, Scans.cons (fun _ _ => chunkLineEnd_lf) ?_⟩
        exact ⟨[], b.window (k + 1) left, rfl, (length_window hb (by omega)).symm, rfl⟩
    · have hc : httpIsCrlf c = false := Bool.eq_false_iff.mpr hcrlf
      rw [if_neg hcrlf]
      rcases hext : ext with - | -
      · rw [if_neg Bool.false_ne_true]
        subst hext
        by_cases hsemi : c = 59
        · rw [if_pos hsemi]
          exact hrec hc (.inr hsemi)
        · rw [if_neg hsemi, hwindow]
          have hlen : (b.window (k + 1) left).length = left := length_window hb (by omega)
          have hstuck : Scans (ChunkLineEnd false) (c :: b.window (k + 1) left) _ :=
            .stuck extends_chunkLineEnd fun _ l => chunkLineEnd_stuck hc hsemi
          rw [hlen] at hstuck
          exact ⟨_, rfl, hstuck⟩
      · subst hext
        rw [if_pos rfl]
        exact hrec hc (.inl rfl)

theorem chunkBlanks_spec (hb : b.Valid) (left : ℕ) {k ptr : ℕ} (hk : k + left ≤ b.data)
    (hptr : 0 < left → ptr = bPeekOfs b k) :
    ∃ r, chunkBlanks b left ptr = .ok r ∧ Scans ChunkBlanks (b.window k left) r := by
  induction left generalizing k ptr with
  | zero => exact ⟨.short, rfl, window_zero b k ▸ extends_chunkBlanks⟩
  | succ left ih =>
    obtain ⟨c, hbyte, hwindow⟩ := window_succ hb k left hk
    rw [chunkBlanks, hptr (Nat.succ_pos left), hbyte]
    show ∃ r, (if httpIsSpht c = true then _ else _) = _ ∧ _
    by_cases hc : httpIsSpht c = true
    · rw [if_pos hc, hwindow]
      have hk' : k + 1 + left ≤ b.data := by omega
      obtain ⟨r, hr, hscan⟩ := ih hk' fun hleft => bNext_peek hb (by omega)
      exact ⟨r, hr, hscan.cons fun _ _ => chunkBlanks_blank hc⟩
    · rw [if_neg hc]
      obtain ⟨r, hr, hscan⟩ := chunkLineEnd_spec hb (left + 1) false hk fun _ => rfl
      have hend (u : Unit) (l : List UInt8) := chunkBlanks_end (u := u) (l := l)
        (Bool.eq_false_iff.mpr hc)
      rw [hwindow] at hscan ⊢
      exact ⟨r, hr, hscan.head hend (fun _ => chunkLineEnd_ne_nil) extends_chunkBlanks⟩

theorem chunkBlanks_ne_nil {u : Unit} : ¬ChunkBlanks u [] := by
  rintro ⟨blanks, rest, heq, -, hrest⟩
  obtain ⟨-, rfl⟩ := List.append_eq_nil_iff.mp heq.symm
  exact chunkLineEnd_ne_nil hrest

theorem toNat_chunk {c : UInt8} {chunk : UInt64} (hc : 0 ≤ hex2i c)
    (hchunk : chunk.toNat < 2 ^ 52) :
    (chunk <<< 4 + UInt64.ofNat (hex2i c).toNat).toNat =
      16 * chunk.toNat + (hex2i c).toNat ∧ (hex2i c).toNat < 16 := by
  have hlt : (hex2i c).toNat < 16 := by
    unfold hex2i at hc ⊢
    split_ifs at hc ⊢ with h₁ h₂ h₃
    · have := UInt8.le_iff_toNat_le.mp h₁.2
      simp only [UInt8.toNat_ofNat] at this
      omega
    · have := UInt8.le_iff_toNat_le.mp h₂.2
      simp only [UInt8.toNat_ofNat] at this
      omega
    · have := UInt8.le_iff_toNat_le.mp h₃.2
      simp only [UInt8.toNat_ofNat] at this
      omega
    · omega
  refine ⟨?_, hlt⟩
  rw [UInt64.toNat_add, UInt64.toNat_shiftLeft,
    UInt64.toNat_ofNat_of_lt' (Nat.lt_trans hlt (by decide)), Nat.shiftLeft_eq]
  show (chunk.toNat * 2 ^ 4 % 2 ^ 64 + (hex2i c).toNat) % 2 ^ 64 = _
  omega

/-- **The digits and the rest of the line.**  The pointer is back at the first byte only
if no digit was read, since what is left does not start before it. -/
theorem chunkDigits_spec (hb : b.Valid) (start left : ℕ) {k ptr : ℕ} {chunk : UInt64}
    (hk : k + left ≤ b.data) (hptr : 0 < left → ptr = bPeekOfs b k) (hstart : start ≤ k)
    (hchunk : chunk.toNat < 2 ^ 52) (hzero : k = start → chunk = 0) :
    ∃ r, chunkDigits b (bPeekOfs b start) chunk left ptr = .ok r ∧
      Scans (ChunkDigits chunk.toNat (start < k)) (b.window k left) (r.map UInt64.toNat) := by
  have hextends (k : ℕ) (chunk : UInt64) (hstart : start ≤ k) (hchunk : chunk.toNat < 2 ^ 52)
      (hzero : k = start → chunk = 0) : Extends (ChunkDigits chunk.toNat (start < k)) [] := by
    apply extends_chunkDigits hchunk
    rcases Nat.lt_or_eq_of_le hstart with hlt | heq
    · exact .inl (decide_eq_true hlt)
    · exact .inr (congrArg UInt64.toNat (hzero heq.symm))
  induction left generalizing k ptr chunk with
  | zero => exact ⟨.short, rfl, window_zero b k ▸ hextends k chunk hstart hchunk hzero⟩
  | succ left ih =>
    obtain ⟨c, hbyte, hwindow⟩ := window_succ hb k left hk
    have hlen : (b.window (k + 1) left).length = left := length_window hb (by omega)
    have hnil := hextends k chunk hstart hchunk hzero
    rw [chunkDigits, hptr (Nat.succ_pos left), hbyte]
    show ∃ r, (if hex2i c < 0 then _ else _) = _ ∧ _
    by_cases hc : hex2i c < 0
    · rw [if_pos hc]
      by_cases hempty : k = start
      · -- empty size
        rw [if_pos (by rw [hempty]), hwindow]
        have hnone (v : ℕ) (l : List UInt8) :
            ¬ChunkDigits chunk.toNat (start < k) v (c :: l) := by
          rw [decide_eq_false (show ¬start < k by omega)]
          exact chunkDigits_none hc
        have hstuck : Scans _ (c :: b.window (k + 1) left) _ := .stuck hnil hnone
        rw [hlen] at hstuck
        exact ⟨_, rfl, hstuck⟩
      · have hne : bPeekOfs b k ≠ bPeekOfs b start :=
          fun h => hempty (bPeekOfs_inj hb (by omega) (by omega) h)
        obtain ⟨r, hr, hscan⟩ := chunkBlanks_spec hb (left + 1) hk fun _ => rfl
        rw [if_neg hne, hr]
        refine ⟨_, rfl, ?_⟩
        have hmap : (r.map fun _ => chunk).map UInt64.toNat = r.map fun _ => chunk.toNat := by
          cases r <;> rfl
        rw [hmap, hwindow]
        rw [hwindow] at hscan
        have hscan' : Scans (fun v l => ∃ u, chunk.toNat = v ∧ ChunkBlanks u l)
            (c :: b.window (k + 1) left) (r.map fun _ => chunk.toNat) :=
          hscan.map fun _ _ => Iff.rfl
        refine hscan'.head (fun v l => ?_) (fun v ⟨u, _, h⟩ => chunkBlanks_ne_nil h) hnil
        rw [decide_eq_true (show start < k by omega)]
        exact chunkDigits_end hc hchunk
    · have hc' : 0 ≤ hex2i c := Int.not_lt.mp hc
      obtain ⟨hnat, hdigit⟩ := toNat_chunk hc' hchunk
      have hcons (v : ℕ) (l : List UInt8) : ChunkDigits chunk.toNat (start < k) v (c :: l) ↔
          ChunkDigits (16 * chunk.toNat + (hex2i c).toNat) true v l := chunkDigits_digit hc'
      rw [if_neg hc]
      rw [← hnat] at hcons
      generalize chunk <<< 4 + UInt64.ofNat (hex2i c).toNat = chunk' at *
      have hmask := chunk_mask (x := chunk') (by omega)
      by_cases hlarge : 2 ^ 52 ≤ chunk'.toNat
      · rw [if_pos (hmask.mpr hlarge), hwindow]
        have hstuck : Scans (ChunkDigits chunk.toNat (start < k))
            (c :: b.window (k + 1) left) _ :=
          .stuck hnil fun v l h => chunkDigits_large hlarge ((hcons v l).mp h)
        rw [hlen] at hstuck
        exact ⟨_, rfl, hstuck⟩
      · rw [if_neg fun h => hlarge (hmask.mp h), hwindow]
        have hk' : k + 1 + left ≤ b.data := by omega
        obtain ⟨r, hr, hscan⟩ := ih hk' (fun hleft => bNext_peek hb (by omega)) (by omega)
          (Nat.lt_of_not_le hlarge) (fun h => absurd h (by omega))
        rw [decide_eq_true (show start < k + 1 by omega)] at hscan
        exact ⟨r, hr, hscan.cons hcons⟩

end Loops

/-! ### The line of a chunk -/

/-- The line of a chunk whose size is `v`: hexadecimal digits, blanks, perhaps an
extension, a carriage return or not, and a line feed. -/
def ChunkLine : Format UInt8 ℕ := fun v line =>
  ∃ digits blanks ext cr, line = digits ++ blanks ++ ext ++ cr ++ [10] ∧ digits ≠ [] ∧
    (∀ c ∈ digits, 0 ≤ hex2i c) ∧ hexValue 0 digits = v ∧ v < 2 ^ 52 ∧
    (∀ c ∈ blanks, httpIsSpht c = true) ∧
    (ext = [] ∨ ∃ t, ext = 59 :: t ∧ ∀ c ∈ t, httpIsCrlf c = false) ∧ (cr = [] ∨ cr = [13])

section Line

variable {v : ℕ} {l : List UInt8}

theorem chunkLineEnd_iff {u : Unit} : ChunkLineEnd false u l ↔ ∃ ext cr, l = ext ++ cr ++ [10] ∧
    (ext = [] ∨ ∃ t, ext = 59 :: t ∧ ∀ c ∈ t, httpIsCrlf c = false) ∧ (cr = [] ∨ cr = [13]) := by
  have hsemi : httpIsCrlf 59 = false := rfl
  constructor
  · rintro ⟨t, e, rfl, ht, he, hext⟩
    have hcr : ∃ cr, e = cr ++ [10] ∧ (cr = [] ∨ cr = [13]) := by
      rcases he with rfl | rfl
      · exact ⟨[], rfl, .inl rfl⟩
      · exact ⟨[13], rfl, .inr rfl⟩
    obtain ⟨cr, rfl, hcr⟩ := hcr
    refine ⟨t, cr, (List.append_assoc ..).symm, ?_, hcr⟩
    rcases hext with hext | rfl | ⟨t, rfl⟩
    · exact absurd hext Bool.false_ne_true
    · exact .inl rfl
    · exact .inr ⟨t, rfl, fun c hc => ht c (List.mem_cons_of_mem _ hc)⟩
  · rintro ⟨ext, cr, rfl, hext, hcr⟩
    refine ⟨ext, cr ++ [10], List.append_assoc .., ?_, ?_, .inr ?_⟩
    · intro c hc
      rcases hext with rfl | ⟨t, rfl, ht⟩
      · exact absurd hc List.not_mem_nil
      · rcases List.mem_cons.mp hc with rfl | hc
        · exact hsemi
        · exact ht c hc
    · rcases hcr with rfl | rfl
      · exact .inl rfl
      · exact .inr rfl
    · exact hext.imp_right fun ⟨t, h, _⟩ => ⟨t, h⟩

theorem chunkLine_iff : ChunkLine v l ↔ ChunkDigits 0 false v l := by
  constructor
  · rintro ⟨digits, blanks, ext, cr, rfl, hne, hdigits, hv, hlt, hblanks, hext, hcr⟩
    refine ⟨digits, blanks ++ (ext ++ cr ++ [10]), ?_, .inr hne, hdigits, hv, hlt, blanks,
      ext ++ cr ++ [10], rfl, hblanks, chunkLineEnd_iff.mpr ⟨ext, cr, rfl, hext, hcr⟩⟩
    simp only [List.append_assoc]
  · rintro ⟨digits, rest, rfl, hsome, hdigits, hv, hlt, blanks, rest, rfl, hblanks, hend⟩
    obtain ⟨ext, cr, rfl, hext, hcr⟩ := chunkLineEnd_iff.mp hend
    refine ⟨digits, blanks, ext, cr, ?_, hsome.resolve_left Bool.false_ne_true, hdigits, hv, hlt,
      hblanks, hext, hcr⟩
    simp only [List.append_assoc]

theorem chunkLine_shape (h : ChunkLine v l) : (∃ x, l = x ++ [10] ∧ 10 ∉ x) ∧
    v = hexValue 0 (l.takeWhile fun c => 0 ≤ hex2i c) := by
  constructor
  · obtain ⟨digits, blanks, ext, cr, rfl, -, hdigits, -, -, hblanks, hext, hcr⟩ := h
    refine ⟨_, rfl, fun hmem => ?_⟩
    simp only [List.mem_append] at hmem
    rcases hmem with ((hmem | hmem) | hmem) | hmem
    · exact absurd (hdigits 10 hmem) (by decide)
    · exact absurd (hblanks 10 hmem) (by decide)
    · rcases hext with rfl | ⟨t, rfl, ht⟩
      · exact absurd hmem List.not_mem_nil
      · rcases List.mem_cons.mp hmem with hmem | hmem
        · exact absurd hmem (by decide)
        · exact absurd (ht 10 hmem) (by decide)
    · rcases hcr with rfl | rfl
      · exact absurd hmem List.not_mem_nil
      · exact absurd (List.mem_singleton.mp hmem) (by decide)
  · obtain ⟨digits, rest, rfl, -, hdigits, rfl, -, hrest⟩ := chunkLine_iff.mp h
    have hstop : rest.takeWhile (fun c => decide (0 ≤ hex2i c)) = [] := by
      rcases rest with - | ⟨c, rest⟩
      · rfl
      · have hc := chunkBlanks_first hrest
        rw [List.takeWhile_cons, decide_eq_false (Int.not_le.mpr hc)]
        rfl
    rw [List.takeWhile_append_of_pos fun c hc => decide_eq_true (hdigits c hc), hstop,
      List.append_nil]

theorem prefixFree_chunkLine : PrefixFree ChunkLine := by
  intro v v' l l' h h'
  obtain ⟨⟨x, hx, -⟩, hv⟩ := chunkLine_shape h
  obtain ⟨⟨y, hy, hout⟩, hv'⟩ := chunkLine_shape h'
  have hnil : l' = [] := by
    rcases List.eq_nil_or_concat l' with hnil | ⟨z, d, hz⟩
    · exact hnil
    · -- the first line feed would not be the last byte
      rw [hx, hz, List.concat_eq_append, ← List.append_assoc] at hy
      obtain ⟨hy, -⟩ := List.append_inj' hy rfl
      rw [← hy] at hout
      exact absurd (by simp) hout
  subst hnil
  rw [List.append_nil] at hv'
  exact ⟨rfl, hv.trans hv'.symm⟩

end Line

/-! ### Exactness -/

/-- What the call has to return, and to store, for these bytes. -/
structure ChunkSizeExact (bs : List UInt8) (r : ℤ × Option UInt64) : Prop where
  read : ∀ (n : ℕ) (v : UInt64), 0 < n →
    (r = ((n : ℤ), some v) ↔ n ≤ bs.length ∧ ChunkLine v.toNat (bs.take n))
  short : r.1 = 0 ↔ Extends ChunkLine bs
  error : r.1 < 0 ↔ ¬Extends ChunkLine bs ∧ ∀ v, ¬∃ n, ChunkLine v (bs.take n)

/-- The return value for the end of a scan. -/
theorem chunkSizeExact_of_scans {bs : List UInt8} {r : ScanEnd UInt64}
    (h : Scans ChunkLine bs (r.map UInt64.toNat)) :
    ChunkSizeExact bs (chunkSizeReturn bs.length r) := by
  have hunique {r' : ScanEnd ℕ} (h' : Scans ChunkLine bs r') : r.map UInt64.toNat = r' :=
    h.unique prefixFree_chunkLine h'
  have hleft := h.left_le
  have hdone {n v : ℕ} (hline : ChunkLine v (bs.take n)) :
      Scans ChunkLine bs (.done (bs.length - n) v) :=
    ⟨bs.take n, bs.drop n, (List.take_append_drop n bs).symm, List.length_drop.symm, hline⟩
  -- the end of the scan is unique, so that each case excludes the other two
  cases r with
  | short =>
    refine ⟨fun n v hn => ⟨fun heq => ?_, fun ⟨hle, hline⟩ => ?_⟩, iff_of_true rfl h, ?_⟩
    · cases (Prod.mk.inj heq).2
    · cases hunique (hdone hline)
    · exact iff_of_false (show ¬(0 : ℤ) < 0 by decide) fun ⟨hext, _⟩ => hext h
  | error left =>
    obtain ⟨hpos, -⟩ := hleft.1 left rfl
    refine ⟨fun n v hn => ⟨fun heq => ?_, fun ⟨hle, hline⟩ => ?_⟩, ?_, ?_⟩
    · have hneg := (Prod.mk.inj heq).1
      omega
    · cases hunique (hdone hline)
    · refine iff_of_false (show (-(left : ℤ)) ≠ 0 by omega) fun hext => ?_
      have hshort : Scans ChunkLine bs .short := hext
      cases hunique hshort
    · refine iff_of_true (show (-(left : ℤ)) < 0 by omega) ⟨fun hext => ?_, fun v ⟨n, hn⟩ => ?_⟩
      · have hshort : Scans ChunkLine bs .short := hext
        cases hunique hshort
      · cases hunique (hdone hn)
  | done left v =>
    obtain ⟨l, rest, rfl, rfl, hline⟩ := h
    have hne : 0 < l.length := by
      obtain ⟨⟨x, rfl, -⟩, -⟩ := chunkLine_shape hline
      rw [List.length_append]
      exact Nat.succ_pos _
    have hlen : ((l ++ rest).length : ℤ) - rest.length = l.length := by
      rw [List.length_append]
      omega
    rw [chunkSizeReturn, hlen]
    refine ⟨fun n w hn => ⟨fun heq => ?_, fun ⟨hle, hline'⟩ => ?_⟩, ?_, ?_⟩
    · obtain ⟨hn', hv⟩ := Prod.mk.inj heq
      obtain rfl := Option.some.inj hv
      have hn'' : n = l.length := by omega
      rw [hn'', List.take_left' rfl, List.length_append]
      exact ⟨Nat.le_add_right .., hline⟩
    · have hsame := hunique (hdone hline')
      simp only [ScanEnd.map, ScanEnd.done.injEq] at hsame
      rw [List.length_append] at hsame hle
      rw [UInt64.toNat_inj.mp hsame.2, show (l.length : ℤ) = n by omega]
    · refine iff_of_false (show (l.length : ℤ) ≠ 0 by omega) fun hext => ?_
      have hshort : Scans ChunkLine (l ++ rest) .short := hext
      cases hunique hshort
    · refine iff_of_false (show ¬(l.length : ℤ) < 0 by omega) fun ⟨_, hnone⟩ => ?_
      exact hnone v.toNat ⟨l.length, by rwa [List.take_left' rfl]⟩

/-- **Chunk size parsing is exact and position independent.**  The call consumes a line
of a chunk and stores its size, returns 0 if the bytes are the start of such a line, and
a negative value otherwise; and the result depends on the bytes only. -/
theorem h1ParseChunkSize_exact {b : Buffer} (hb : b.Valid) {start stop : ℕ} (h : start ≤ stop)
    (hstop : stop ≤ b.data) :
    ∃ r, h1ParseChunkSize b start stop = .ok r ∧
      ChunkSizeExact (b.window start (stop - start)) r ∧
      ∀ (b' : Buffer) (start' stop' : ℕ), b'.Valid → start' ≤ stop' → stop' ≤ b'.data →
        b'.window start' (stop' - start') = b.window start (stop - start) →
        h1ParseChunkSize b' start' stop' = .ok r := by
  have hscan {b : Buffer} (hb : b.Valid) {start stop : ℕ} (h : start ≤ stop)
      (hstop : stop ≤ b.data) : ∃ r,
        chunkDigits b (bPeekOfs b start) 0 (stop - start) (bPeekOfs b start) = .ok r ∧
          Scans ChunkLine (b.window start (stop - start)) (r.map UInt64.toNat) := by
    obtain ⟨r, hr, hscan⟩ := chunkDigits_spec hb start (stop - start) (k := start) (by omega)
      (fun _ => rfl) (Nat.le_refl start) (show UInt64.toNat 0 < 2 ^ 52 by decide) fun _ => rfl
    rw [decide_eq_false (Nat.lt_irrefl start)] at hscan
    have heq : ChunkDigits (UInt64.toNat 0) false = ChunkLine := by
      funext v l
      exact propext chunkLine_iff.symm
    rw [heq] at hscan
    exact ⟨r, hr, hscan⟩
  obtain ⟨r, hr, hline⟩ := hscan hb h hstop
  have hlen : (b.window start (stop - start)).length = stop - start := length_window hb (by omega)
  have hexact := chunkSizeExact_of_scans hline
  rw [hlen] at hexact
  refine ⟨_, ?_, hexact, fun b' start' stop' hb' h' hstop' heq => ?_⟩
  · rw [h1ParseChunkSize, hr]
    rfl
  · obtain ⟨r', hr', hline'⟩ := hscan hb' h' hstop'
    have hlen' : (b'.window start' (stop' - start')).length = stop' - start' :=
      length_window hb' (by omega)
    rw [heq, hlen] at hlen'
    rw [heq] at hline'
    have hsame := hline'.unique prefixFree_chunkLine hline
    have hr'' : r' = r := by
      cases r' <;> cases r <;> simp_all [ScanEnd.map, UInt64.toNat_inj]
    rw [h1ParseChunkSize, hr', hr'', ← hlen']
    rfl

/-- The line of a chunk of 26 bytes, with its line break at the start of the area. -/
def wrappedChunk : Buffer := ⟨[13, 10, 49, 65], 2, 4⟩

theorem h1ParseChunkSize_exact_wrapped :
    h1ParseChunkSize wrappedChunk 0 4 = .ok (4, some 26) ∧
      ChunkSizeExact [49, 65, 13, 10] (4, some 26) := by
  have hvalid : wrappedChunk.Valid := ⟨by decide, by decide⟩
  have hrun : h1ParseChunkSize wrappedChunk 0 4 = .ok (4, some 26) := by decide
  obtain ⟨r, hr, hexact, -⟩ :=
    h1ParseChunkSize_exact hvalid (Nat.zero_le 4) (Nat.le_refl 4)
  rw [hrun] at hr
  rw [← Except.ok.inj hr] at hexact
  exact ⟨hrun, hexact⟩

/-! ### The line break after a chunk -/

/-- What the call has to return for these bytes. -/
structure ChunkCrlfExact (bs : List UInt8) (r : ℤ) : Prop where
  lf : bs.take 1 = [10] → r = 1
  crlf : bs.take 2 = [13, 10] → r = 2
  cut : bs = [13] → r = 0
  error : bs.take 1 ≠ [10] → bs.take 2 ≠ [13, 10] → bs ≠ [13] → r < 0

/-- **Chunk CRLF skipping reports errors at every wrap position.**  The pointer does not
pass the end of the data, which is counted without wrapping, so that the difference of
the two is negative wherever the pointer is. -/
theorem h1SkipChunkCrlf_exact {b : Buffer} (hb : b.Valid) {start stop : ℕ} (h : start < stop)
    (hstop : stop ≤ b.data) :
    ∃ r, h1SkipChunkCrlf b start stop = .ok r ∧
      ChunkCrlfExact (b.window start (stop - start)) r := by
  have hle (k : ℕ) : bPeekOfs b k ≤ b.head + k := by
    rcases bPeekOfs_cases b k with ⟨-, hpeek⟩ | ⟨-, hpeek⟩ <;> omega
  obtain ⟨left, hleft⟩ : ∃ left, stop - start = left + 1 := ⟨stop - start - 1, by omega⟩
  obtain ⟨c, hbyte, hwindow⟩ := window_succ hb start left (by omega)
  rw [hleft, hwindow, h1SkipChunkCrlf, if_neg (Nat.not_le.mpr h), hleft]
  dsimp only
  rw [hbyte]
  show ∃ r, (if (if c = 13 then 2 else 1) > left + 1 then _ else _) = _ ∧ _
  by_cases hcr : c = 13
  · subst hcr
    simp only [if_true]
    rcases left with - | left
    · -- a lone carriage return
      rw [if_pos (by decide), window_zero]
      refine ⟨0, rfl, fun h => ?_, fun h => ?_, fun _ => rfl, fun _ _ hne => absurd rfl hne⟩
      · exact absurd (List.cons.inj h).1 (by decide)
      · cases (List.cons.inj h).2
    · obtain ⟨d, hbyte', hwindow'⟩ := window_succ hb (start + 1) left (by omega)
      rw [if_neg (by omega), bNext_peek hb (by omega), hbyte', hwindow']
      show ∃ r, (if d ≠ 10 then _ else _) = _ ∧ _
      by_cases hlf : d = 10
      · subst hlf
        refine ⟨2, rfl, fun h => ?_, fun _ => rfl, fun h => ?_, fun _ hne _ => absurd rfl hne⟩
        · exact absurd (List.cons.inj h).1 (by decide)
        · cases (List.cons.inj h).2
      · rw [if_pos hlf]
        refine ⟨_, rfl, fun h => ?_, fun h => ?_, fun h => ?_, fun _ _ _ => ?_⟩
        · exact absurd (List.cons.inj h).1 (by decide)
        · exact absurd (List.cons.inj (List.cons.inj h).2).1 hlf
        · cases (List.cons.inj h).2
        · have := hle (start + 1)
          show (bPeekOfs b (start + 1) : ℤ) - (b.head + stop : ℕ) < 0
          omega
  · simp only [if_neg hcr]
    rw [if_neg (by omega), hbyte]
    show ∃ r, (if c ≠ 10 then _ else _) = _ ∧ _
    by_cases hlf : c = 10
    · subst hlf
      refine ⟨1, rfl, fun _ => rfl, fun h => ?_, fun h => ?_, fun hne _ _ => absurd rfl hne⟩
      · exact absurd (List.cons.inj h).1 (by decide)
      · exact absurd (List.cons.inj h).1 (by decide)
    · rw [if_pos hlf]
      refine ⟨_, rfl, fun h => ?_, fun h => ?_, fun h => ?_, fun _ _ _ => ?_⟩
      · exact absurd (List.cons.inj h).1 hlf
      · exact absurd (List.cons.inj h).1 hcr
      · exact absurd (List.cons.inj h).1 hcr
      · have := hle start
        show (bPeekOfs b start : ℤ) - (b.head + stop : ℕ) < 0
        omega

/-- A carriage return at the end of the area that no line feed follows: the pointer
wraps, and the value is still negative. -/
theorem h1SkipChunkCrlf_exact_wrapped :
    h1SkipChunkCrlf ⟨[65, 66, 0, 13], 3, 3⟩ 0 3 = .ok (-6) ∧ ChunkCrlfExact [13, 65, 66] (-6) := by
  have hvalid : Buffer.Valid ⟨[65, 66, 0, 13], 3, 3⟩ := ⟨by decide, by decide⟩
  have hrun : h1SkipChunkCrlf ⟨[65, 66, 0, 13], 3, 3⟩ 0 3 = .ok (-6) := by decide
  obtain ⟨r, hr, hexact⟩ := h1SkipChunkCrlf_exact hvalid (Nat.zero_lt_succ 2) (Nat.le_refl 3)
  rw [hrun] at hr
  rw [← Except.ok.inj hr] at hexact
  exact ⟨hrun, hexact⟩

end SmartHAProxy
