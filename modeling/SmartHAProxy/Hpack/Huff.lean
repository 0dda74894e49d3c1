/-
Huffman decoding for HPACK (hpack-huff.c, `huff_dec`).

The decoder keeps 64 bits of the input in `curr` and `next` and reads four bytes more
whenever 32 bits have been shifted out, with zero bits behind the end.  Each turn of its
loop takes the next 32 bits (`HuffAt.code_eq`), finds the symbol they begin with, and
takes its bits from the input.  The loop ends with all bits taken, or at bits that are
not the code of a symbol; seven one bits at most may be left.

So the symbols that are written are those of the input (`huffLoop_scanned`), as far as
the search finds them.  It does not find the symbols with codes of 30 bits, unless the
two bits behind are zero: this is the condition under which strings are decoded.
-/
import SmartHAProxy.Hpack.HuffTable

namespace SmartHAProxy

variable {rest : List Bool} {k olen : ℕ} {syms huff : List UInt8}

open scoped List

/-! ### The decoder -/

/-- The variables of `huff_dec`: `huff` has the bytes up to `huff_end`, `out` those from
`out_start` on. -/
structure HuffState where
  huff : List UInt8
  curr : ℕ
  next : ℕ
  shift : ℕ
  code : ℕ
  bleft : ℕ
  out : List UInt8

/-- Up to four bytes, and 0 behind the end. -/
def huffWord (huff : List UInt8) : ℕ :=
  ((huff.getD 0 0).toNat <<< 24) + ((huff.getD 1 0).toNat <<< 16) +
    ((huff.getD 2 0).toNat <<< 8) + (huff.getD 3 0).toNat

/-- The body of `while (shift >= 32)`. -/
def huffRefill (s : HuffState) : HuffState :=
  { s with
    curr := s.next
    next := huffWord s.huff
    huff := s.huff.drop 4
    shift := s.shift - 32 }

/-- The next 32 bits, after the inner loop has read what is needed. -/
def huffCode (s : HuffState) : HuffState :=
  let s := huffRefill^[s.shift / 32] s
  { s with
    code :=
      if s.shift = 0 then s.curr
      else ((s.curr <<< s.shift) + (s.next >>> (32 - s.shift))) % 2 ^ 32 }

/-- The loop.  Each turn takes at least one bit. -/
def huffLoop (olen : ℕ) : ℕ → HuffState → HuffState
  | 0, s => s
  | fuel + 1, s =>
    if s.bleft > 0 ∧ s.out.length ≠ olen then
      let s := huffCode s
      match huffLookup s.code with
      | none => s
      | some e =>
        if e.l = 0 ∨ s.bleft < e.l then s
        else
          huffLoop olen fuel
            { s with
              bleft := s.bleft - e.l
              shift := s.shift + e.l
              out := s.out ++ [UInt8.ofNat e.c] }
    else s

/-- `(uint32_t)-(1 << (32 - bleft))`. -/
def huffMask (bleft : ℕ) : ℕ := 2 ^ 32 - 2 ^ (32 - bleft)

/-- What is returned, and the bytes that are written. -/
structure HuffResult where
  ret : ℤ
  written : List UInt8
  deriving DecidableEq, Repr

def huffDec (huff : List UInt8) (olen : ℕ) : HuffResult :=
  let s := huffLoop olen (8 * huff.length) ⟨huff, 0, 0, 64, 0, 8 * huff.length, []⟩
  if s.bleft > 0 ∧ (s.bleft > 7 ∨ s.code &&& huffMask s.bleft ≠ huffMask s.bleft) then
    ⟨-1, s.out⟩
  else
    -- end of string whenever possible
    ⟨s.out.length, if s.out.length < olen then s.out ++ [0] else s.out⟩

/-! ### The code -/

def bitsOf (huff : List UInt8) : List Bool := huff.flatMap fun b => toBits 8 b.toNat

def symBits (s : UInt8) : List Bool := toBits (htAt s.toNat).b (htAt s.toNat).c

def huffBits (syms : List UInt8) : List Bool := syms.flatMap symBits

/-- The string is the codes of the symbols and at most seven one bits. -/
def HuffValid (huff : List UInt8) (syms : List UInt8) : Prop :=
  ∃ k ≤ 7, bitsOf huff = huffBits syms ++ List.replicate k true

/-- Behind each code of 30 bits there are two zero bits, or nothing. -/
def huffClear : List UInt8 → List Bool → Prop
  | [], _ => True
  | s :: syms, bits =>
    ((symBits s).length = 30 → window 2 (bits.drop 30) = [false, false]) ∧
      huffClear syms (bits.drop (symBits s).length)

theorem length_symBits (s : UInt8) : (symBits s).length = (htAt s.toNat).b := length_toBits _ _

theorem symBits_pos (s : UInt8) : 0 < (symBits s).length := by
  rw [length_symBits]
  exact (ht_pos s.toNat_lt).1

theorem length_le_huffBits (syms : List UInt8) : syms.length ≤ (huffBits syms).length := by
  induction syms with
  | nil => exact Nat.le_refl 0
  | cons s syms ih =>
    have hpos := symBits_pos s
    show syms.length + 1 ≤ (symBits s ++ huffBits syms).length
    rw [List.length_append]
    omega

theorem length_bitsOf (huff : List UInt8) : (bitsOf huff).length = 8 * huff.length := by
  induction huff with
  | nil => rfl
  | cons b huff ih =>
    show (toBits 8 b.toNat ++ bitsOf huff).length = 8 * (huff.length + 1)
    rw [List.length_append, length_toBits, ih]
    omega

theorem symBits_prefix_iff {s : UInt8} (bits : List Bool) (hb : (htAt s.toNat).b ≤ 32) :
    symBits s <+: window 32 bits ↔
      bitsVal (window 32 bits) / 2 ^ (32 - (htAt s.toNat).b) = (htAt s.toNat).c := by
  have hlt : (htAt s.toNat).c < 2 ^ (htAt s.toNat).b := by
    have h := (ht_pos s.toNat_lt).2
    omega
  rw [prefix_iff_bitsVal (by rwa [length_symBits, window_length]), length_symBits, window_length,
    symBits, bitsVal_toBits_of_lt hlt]
  exact eq_comm

/-! ### The next 32 bits -/

theorem window_bitsOf (huff : List UInt8) :
    window 8 (bitsOf huff) = toBits 8 (huff.getD 0 0).toNat := by
  rcases huff with - | ⟨b, huff⟩
  · rfl
  · show ((toBits 8 b.toNat ++ bitsOf huff) ++ List.replicate 8 false).take 8 = toBits 8 b.toNat
    rw [List.append_assoc, List.take_append_of_le_length (by rw [length_toBits]),
      List.take_of_length_le (by rw [length_toBits])]

theorem bitsOf_drop (huff : List UInt8) (k : ℕ) :
    bitsOf (huff.drop k) = (bitsOf huff).drop (8 * k) := by
  induction k generalizing huff with
  | zero => rfl
  | succ k ih =>
    rcases huff with - | ⟨b, huff⟩
    · rfl
    · have hdrop : (bitsOf (b :: huff)).drop 8 = bitsOf huff := by
        show (toBits 8 b.toNat ++ bitsOf huff).drop 8 = bitsOf huff
        exact List.drop_left' (length_toBits 8 b.toNat)
      rw [List.drop_succ_cons, ih, ← hdrop, List.drop_drop]
      congr 1
      omega

theorem huffWord_eq (huff : List UInt8) : huffWord huff = bitsVal (window 32 (bitsOf huff)) := by
  have hbyte (k : ℕ) : bitsVal (window 8 ((bitsOf huff).drop (8 * k))) = (huff.getD k 0).toNat := by
    rw [← bitsOf_drop, window_bitsOf, bitsVal_toBits_of_lt (UInt8.toNat_lt _)]
    simp
  have h₀ := hbyte 0
  rw [Nat.mul_zero, List.drop_zero] at h₀
  rw [show 32 = 8 + (8 + (8 + 8)) from rfl, window_append, window_append, window_append,
    List.drop_drop, List.drop_drop, bitsVal_append, bitsVal_append, bitsVal_append,
    h₀]
  simp only [List.length_append, window_length]
  have h₁ := hbyte 1
  have h₂ := hbyte 2
  have h₃ := hbyte 3
  rw [show 8 * 1 = 8 from rfl] at h₁
  rw [show 8 * 2 = 8 + 8 from rfl] at h₂
  rw [show 8 * 3 = 8 + 8 + 8 from rfl] at h₃
  rw [h₁, h₂, h₃, huffWord]
  simp only [Nat.shiftLeft_eq]
  omega

/-- `curr` and `next` are the 64 bits from the place `q` on, and the other bytes come behind. -/
structure HuffAt (bits : List Bool) (q : ℕ) (s : HuffState) : Prop where
  curr : s.curr = bitsVal (window 32 (bits.drop q))
  next : s.next = bitsVal (window 32 (bits.drop (q + 32)))
  huff : bitsOf s.huff = bits.drop (q + 64)

variable {bits : List Bool} {q : ℕ} {s : HuffState}

theorem HuffAt.refill (h : HuffAt bits q s) : HuffAt bits (q + 32) (huffRefill s) := by
  refine ⟨h.next, ?_, ?_⟩
  · show huffWord s.huff = _
    rw [huffWord_eq, h.huff]
  · show bitsOf (s.huff.drop 4) = _
    rw [bitsOf_drop, h.huff, List.drop_drop]

theorem HuffAt.iterate (h : HuffAt bits q s) : ∀ k, 32 * k ≤ s.shift →
    HuffAt bits (q + 32 * k) (huffRefill^[k] s) ∧
      (huffRefill^[k] s).shift = s.shift - 32 * k ∧ (huffRefill^[k] s).bleft = s.bleft ∧
      (huffRefill^[k] s).out = s.out := by
  intro k
  induction k with
  | zero => exact fun _ => ⟨h, rfl, rfl, rfl⟩
  | succ k ih =>
    intro hk
    obtain ⟨hat, hshift, hbleft, hout⟩ := ih (by omega)
    rw [Function.iterate_succ_apply']
    refine ⟨?_, ?_, hbleft, hout⟩
    · have hnext := hat.refill
      rwa [Nat.add_assoc] at hnext
    · show (huffRefill^[k] s).shift - 32 = _
      rw [hshift]
      omega

/-- **The 32 bits that are looked up** are those at the place of the decoder. -/
theorem HuffAt.code_eq (h : HuffAt bits q s) : ∃ q', HuffAt bits q' (huffCode s) ∧
    q' + (huffCode s).shift = q + s.shift ∧ (huffCode s).bleft = s.bleft ∧
    (huffCode s).out = s.out ∧
    (huffCode s).code = bitsVal (window 32 (bits.drop (q + s.shift))) := by
  obtain ⟨hat, hshift, hbleft, hout⟩ := h.iterate (s.shift / 32) (Nat.mul_div_le _ _)
  generalize hs' : huffRefill^[s.shift / 32] s = s' at *
  have hplace : q + 32 * (s.shift / 32) + s'.shift = q + s.shift := by omega
  have hlt : s'.shift < 32 := by omega
  refine ⟨q + 32 * (s.shift / 32), ?_, ?_, ?_, ?_, ?_⟩
  · rw [huffCode, hs']
    exact ⟨hat.curr, hat.next, hat.huff⟩
  · rw [huffCode, hs']
    exact hplace
  · rw [huffCode, hs']
    exact hbleft
  · rw [huffCode, hs']
    exact hout
  · rw [huffCode, hs']
    show (if s'.shift = 0 then s'.curr
      else ((s'.curr <<< s'.shift) + (s'.next >>> (32 - s'.shift))) % 2 ^ 32) = _
    rw [← hplace]
    split_ifs with h0
    · rw [h0, Nat.add_zero, hat.curr]
    · rw [← List.drop_drop, bitsVal_window_drop hlt.le, List.drop_drop, ← hat.curr, ← hat.next,
        Nat.shiftLeft_eq, Nat.shiftRight_eq_div_pow]

/-! ### The loop -/

/-- The bits at which the search finds no symbol, or one that is longer than them. -/
def Stuck (rest : List Bool) : Prop :=
  ∀ e, huffLookup (bitsVal (window 32 rest)) = some e → rest.length < e.l

theorem bitsVal_window_lt (n : ℕ) (rest : List Bool) : bitsVal (window n rest) < 2 ^ n := by
  have h := bitsVal_lt (window n rest)
  rwa [window_length] at h

theorem symbol_of_lookup {e : Rht} (h : huffLookup (bitsVal (window 32 rest)) = some e)
    (hle : e.l ≤ rest.length) :
    symBits (UInt8.ofNat e.c) <+: rest ∧ (symBits (UInt8.ofNat e.c)).length = e.l ∧
      (e.l = 30 → window 2 (rest.drop 30) = [false, false]) := by
  have hbegins := huffLookup_sound (bitsVal_window_lt 32 rest) h
  have hc : (UInt8.ofNat e.c).toNat = e.c := by
    rw [UInt8.toNat_ofNat']
    exact Nat.mod_eq_of_lt hbegins.lt
  have hlen : (symBits (UInt8.ofNat e.c)).length = e.l := by rw [length_symBits, hc, hbegins.len]
  have h30 := hbegins.le
  refine ⟨?_, hlen, ?_⟩
  · refine prefix_of_window (n := 32) ?_ (hlen.trans_le hle)
    rw [symBits_prefix_iff rest (by rw [hc, hbegins.len]; omega), hc, hbegins.len, ← hbegins.code]
  · intro hl
    have h4 : bitsVal (window 32 rest) % 4 = 0 := by
      by_contra hbits
      rw [huffLookup_lost (bitsVal_window_lt 32 rest) hbegins.lt
        (by rw [hbegins.len, ← hbegins.code]) (hbegins.len.trans hl) hbits] at h
      cases h
    rw [show 32 = 30 + 2 from rfl, window_append, bitsVal_append, window_length] at h4
    refine eq_of_bitsVal_eq (window_length _ _) ?_
    have hlt := bitsVal_window_lt 2 (rest.drop 30)
    show bitsVal (window 2 (rest.drop 30)) = 0
    omega

theorem lookup_of_symbol {s : UInt8} (h : symBits s <+: rest)
    (hclear : (symBits s).length = 30 → window 2 (rest.drop 30) = [false, false]) :
    huffLookup (bitsVal (window 32 rest)) = some ⟨s.toNat, (htAt s.toNat).b⟩ := by
  have hb := ht_le s.toNat_lt
  refine huffLookup_complete s.toNat_lt ?_ ?_
  · rw [← symBits_prefix_iff rest (by omega)]
    exact prefix_window h (by rw [length_symBits]; omega)
  · intro h30
    have hzero := hclear ((length_symBits s).trans h30)
    rw [show 32 = 30 + 2 from rfl, window_append, bitsVal_append, window_length, hzero]
    show (_ * 2 ^ 2 + 0) % 4 = 0
    omega

/-- `code` is the bits in which the last of the symbols was found. -/
def LastCode (code₀ code : ℕ) (syms : List UInt8) (rest : List Bool) : Prop :=
  syms = [] ∧ code = code₀ ∨
    ∃ pre x, syms = pre ++ [x] ∧ code = bitsVal (window 32 (symBits x ++ rest))

/-- **What the loop has done when it ends**: symbols are written whose codes the bits
begin with, and it has come to the end of the input or of the output, or is stuck. -/
theorem huffLoop_scanned (olen : ℕ) : ∀ (fuel : ℕ) {q : ℕ} {s : HuffState}, HuffAt bits q s →
    s.bleft = (bits.drop (q + s.shift)).length → s.bleft ≤ fuel →
    ∃ syms rest, bits.drop (q + s.shift) = huffBits syms ++ rest ∧
      (huffLoop olen fuel s).out = s.out ++ syms ∧
      (huffLoop olen fuel s).bleft = rest.length ∧ huffClear syms (bits.drop (q + s.shift)) ∧
      (rest = [] ∨ (huffLoop olen fuel s).out.length = olen ∧
          LastCode s.code (huffLoop olen fuel s).code syms rest ∨
        (huffLoop olen fuel s).code = bitsVal (window 32 rest) ∧ Stuck rest) := by
  intro fuel
  induction fuel with
  | zero =>
    intro q s h hleft hfuel
    have hnil : bits.drop (q + s.shift) = [] := by
      rw [← List.length_eq_zero_iff]
      omega
    exact ⟨[], [], hnil, (List.append_nil _).symm, Nat.le_zero.mp hfuel, trivial, .inl rfl⟩
  | succ fuel ih =>
    intro q s h hleft hfuel
    by_cases hgo : s.bleft > 0 ∧ s.out.length ≠ olen
    · obtain ⟨q', hat, hplace, hbleft, hout, hcode⟩ := h.code_eq
      -- the loop ends here, if the bits are not the code of a symbol
      have hstop (hstuck : Stuck (bits.drop (q + s.shift)))
          (heq : huffLoop olen (fuel + 1) s = huffCode s) :
          ∃ syms rest, bits.drop (q + s.shift) = huffBits syms ++ rest ∧
            (huffLoop olen (fuel + 1) s).out = s.out ++ syms ∧
            (huffLoop olen (fuel + 1) s).bleft = rest.length ∧
            huffClear syms (bits.drop (q + s.shift)) ∧
            (rest = [] ∨ (huffLoop olen (fuel + 1) s).out.length = olen ∧
                LastCode s.code (huffLoop olen (fuel + 1) s).code syms rest ∨
              (huffLoop olen (fuel + 1) s).code = bitsVal (window 32 rest) ∧ Stuck rest) := by
        refine ⟨[], _, rfl, ?_, ?_, trivial, .inr (.inr ⟨?_, hstuck⟩)⟩
        · rw [heq, hout, List.append_nil]
        · rw [heq, hbleft, hleft]
        · rw [heq, hcode]
      rcases hlookup : huffLookup (bitsVal (window 32 (bits.drop (q + s.shift)))) with - | e
      · refine hstop (fun e he => ?_) ?_
        · rw [hlookup] at he
          cases he
        · rw [huffLoop, if_pos hgo]
          simp only [hcode, hlookup]
      · have hbegins := huffLookup_sound (bitsVal_window_lt 32 _) hlookup
        have hpos := hbegins.pos
        by_cases hlong : s.bleft < e.l
        · refine hstop (fun e' he' => ?_) ?_
          · rw [hlookup] at he'
            obtain rfl := Option.some.inj he'
            rwa [← hleft]
          · rw [huffLoop, if_pos hgo]
            simp only [hcode, hlookup]
            rw [if_pos (.inr (by rwa [hbleft]))]
        · -- the symbol is written
          obtain ⟨hsym, hlen, hclear⟩ := symbol_of_lookup hlookup (by omega)
          obtain ⟨tail, htail⟩ := hsym
          have hnext : huffLoop olen (fuel + 1) s = huffLoop olen fuel
              { huffCode s with
                bleft := (huffCode s).bleft - e.l
                shift := (huffCode s).shift + e.l
                out := (huffCode s).out ++ [UInt8.ofNat e.c] } := by
            rw [huffLoop, if_pos hgo]
            simp only [hcode, hlookup]
            rw [if_neg (by rw [hbleft]; omega)]
          have hdrop : bits.drop (q' + ((huffCode s).shift + e.l)) = tail := by
            rw [← Nat.add_assoc, hplace, ← List.drop_drop, ← htail]
            exact List.drop_left' hlen
          have htailLen : tail.length + e.l = s.bleft := by
            rw [hleft, ← htail, List.length_append, hlen, Nat.add_comm]
          obtain ⟨syms, rest, hrest, hout', hleft', hclear', hend⟩ := ih (q := q')
            (s := { huffCode s with
              bleft := (huffCode s).bleft - e.l
              shift := (huffCode s).shift + e.l
              out := (huffCode s).out ++ [UInt8.ofNat e.c] })
            ⟨hat.curr, hat.next, hat.huff⟩ (by rw [hdrop]; dsimp only; omega)
            (by dsimp only; omega)
          rw [hdrop] at hrest hclear'
          rw [hnext]
          refine ⟨UInt8.ofNat e.c :: syms, rest, ?_, ?_, hleft', ⟨?_, ?_⟩,
            hend.imp id (.imp (And.imp id ?_) id)⟩
          · rw [← htail, hrest]
            exact (List.append_assoc ..).symm
          · rw [hout', hout, List.append_assoc]
            rfl
          · intro h30
            exact hclear (hlen.symm.trans h30)
          · rw [← htail, List.drop_left' rfl]
            exact hclear'
          · rintro (⟨rfl, hlast⟩ | ⟨pre, x, rfl, hlast⟩)
            · refine .inr ⟨[], UInt8.ofNat e.c, rfl, ?_⟩
              rw [hlast, hcode, ← htail, hrest]
              rfl
            · exact .inr ⟨UInt8.ofNat e.c :: pre, x, rfl, hlast⟩
    · refine ⟨[], bits.drop (q + s.shift), rfl, ?_, ?_, trivial, ?_⟩
      · rw [huffLoop, if_neg hgo, List.append_nil]
      · rw [huffLoop, if_neg hgo, hleft]
      · rw [huffLoop, if_neg hgo]
        by_cases hleft0 : s.bleft = 0
        · left
          rw [← List.length_eq_zero_iff, ← hleft, hleft0]
        · refine .inr (.inl ⟨?_, .inl ⟨rfl, rfl⟩⟩)
          by_contra hne
          exact hgo ⟨Nat.pos_of_ne_zero hleft0, hne⟩

/-! ### The end -/

theorem land_huffMask_iff {code : ℕ} (hcode : code < 2 ^ 32) (hk : k ≤ 32) :
    code &&& huffMask k = huffMask k ↔ code / 2 ^ (32 - k) = 2 ^ k - 1 := by
  have hmask : huffMask k = (2 ^ k - 1) <<< (32 - k) := by
    rw [huffMask, Nat.shiftLeft_eq, Nat.sub_mul, Nat.one_mul, ← pow_add, Nat.add_sub_cancel' hk]
  rw [hmask]
  constructor
  · intro hland
    apply Nat.eq_of_testBit_eq
    intro i
    rw [Nat.testBit_div_two_pow, Nat.testBit_two_pow_sub_one]
    by_cases hi : i < k
    · have hbit := congrArg (fun x => Nat.testBit x (i + (32 - k))) hland
      simp only [Nat.testBit_and, Nat.testBit_shiftLeft, Nat.testBit_two_pow_sub_one,
        Nat.add_sub_cancel, Nat.le_add_left, hi, decide_true, Bool.and_true] at hbit
      rw [hbit, decide_eq_true hi]
    · rw [decide_eq_false hi]
      apply Nat.testBit_lt_two_pow
      exact hcode.trans_le (Nat.pow_le_pow_right (by decide) (by omega))
  · intro hdiv
    apply Nat.eq_of_testBit_eq
    intro i
    simp only [Nat.testBit_and, Nat.testBit_shiftLeft, Nat.testBit_two_pow_sub_one]
    by_cases hi : 32 - k ≤ i
    · have hbit : (code / 2 ^ (32 - k)).testBit (i - (32 - k)) = decide (i - (32 - k) < k) := by
        rw [hdiv, Nat.testBit_two_pow_sub_one]
      rw [Nat.testBit_div_two_pow, Nat.sub_add_cancel hi] at hbit
      rw [hbit]
      simp [hi]
    · simp [hi]

theorem land_window_iff (bits : List Bool) (hk : k ≤ 32) :
    bitsVal (window 32 bits) &&& huffMask k = huffMask k ↔
      List.replicate k true <+: window 32 bits := by
  have hle : (List.replicate k true).length ≤ (window 32 bits).length := by
    rwa [List.length_replicate, window_length]
  have hpref := prefix_iff_bitsVal hle
  rw [window_length, List.length_replicate, bitsVal_replicate_true] at hpref
  rw [land_huffMask_iff (bitsVal_window_lt 32 bits) hk, eq_comm, ← hpref]

theorem padding_iff (h : rest.length ≤ 7) :
    bitsVal (window 32 rest) &&& huffMask rest.length = huffMask rest.length ↔
      rest = List.replicate rest.length true := by
  rw [land_window_iff rest (by omega)]
  constructor
  · intro hones
    exact ((prefix_of_window hones (by rw [List.length_replicate])).eq_of_length
      (by rw [List.length_replicate])).symm
  · intro heq
    refine prefix_window ?_ (by rw [List.length_replicate]; omega)
    rw [← heq]

theorem not_symBits_prefix_ones (s : UInt8) (k : ℕ) : ¬ symBits s <+: List.replicate k true := by
  intro h
  have hpos := ht_pos s.toNat_lt
  have hones : symBits s = List.replicate (symBits s).length true := by
    rw [List.eq_replicate_iff]
    exact ⟨rfl, fun b hb => List.eq_of_mem_replicate (h.subset hb)⟩
  have hval := congrArg bitsVal hones
  rw [bitsVal_replicate_true, symBits, length_toBits, bitsVal_toBits_of_lt (by omega)] at hval
  omega

/-- **No code begins another one.** -/
theorem symBits_injective_of_prefixCode {s t : UInt8} (h : symBits s <+: symBits t) : s = t := by
  have hzero : ∀ u : UInt8, (symBits u).length = 30 →
      symBits u = symBits t → window 2 ((symBits t).drop 30) = [false, false] := by
    intro u hu heq
    rw [List.drop_of_length_le (by rw [← heq, hu])]
    rfl
  have ht := lookup_of_symbol (List.prefix_refl (symBits t)) fun h30 => hzero t h30 rfl
  have hs := lookup_of_symbol h fun h30 => by
    refine hzero s h30 (h.eq_of_length ?_)
    have hle := ht_le t.toNat_lt
    have hlen := h.length_le
    rw [← length_symBits] at hle
    omega
  rw [ht] at hs
  exact (UInt8.toNat_inj.mp (Rht.mk.inj (Option.some.inj hs)).1).symm

theorem huffBits_append (syms syms' : List UInt8) :
    huffBits (syms ++ syms') = huffBits syms ++ huffBits syms' := List.flatMap_append

/-- The symbols at the beginning of what was coded are the first ones. -/
theorem prefix_of_reading : ∀ {syms syms' : List UInt8},
    huffBits syms ++ rest = huffBits syms' ++ List.replicate k true → syms <+: syms' := by
  intro syms
  induction syms with
  | nil => exact fun _ => List.nil_prefix
  | cons s syms ih =>
    intro syms' heq
    have hs : symBits s <+: huffBits syms' ++ List.replicate k true := by
      rw [← heq]
      exact ⟨huffBits syms ++ rest, (List.append_assoc ..).symm⟩
    rcases syms' with - | ⟨t, syms'⟩
    · exact absurd hs (not_symBits_prefix_ones s k)
    · have ht : symBits t <+: huffBits (t :: syms') ++ List.replicate k true :=
        ⟨huffBits syms' ++ List.replicate k true, (List.append_assoc ..).symm⟩
      obtain rfl : s = t := by
        rcases List.prefix_or_prefix_of_prefix hs ht with h | h
        · exact symBits_injective_of_prefixCode h
        · exact (symBits_injective_of_prefixCode h).symm
      have htail : symBits s ++ (huffBits syms ++ rest)
          = symBits s ++ (huffBits syms' ++ List.replicate k true) := by
        rw [← List.append_assoc, ← List.append_assoc]
        exact heq
      exact List.cons_prefix_cons.mpr ⟨rfl, ih (List.append_cancel_left htail)⟩

theorem huffClear_drop {tail : List UInt8} : ∀ {bits : List Bool},
    huffClear (syms ++ tail) bits → huffClear tail (bits.drop (huffBits syms).length) := by
  induction syms with
  | nil => exact fun h => h
  | cons s syms ih =>
    intro bits h
    have hlen : (huffBits (s :: syms)).length = (symBits s).length + (huffBits syms).length :=
      List.length_append
    rw [hlen, ← List.drop_drop]
    exact ih h.2

/-- Two readings of the same bits: one that is stuck or at the end, and one up to the padding. -/
theorem reading_unique {syms' : List UInt8} {bits : List Bool}
    (hbits : bits = huffBits syms ++ rest) (hend : rest = [] ∨ Stuck rest)
    (hbits' : bits = huffBits syms' ++ List.replicate k true) (hclear : huffClear syms' bits) :
    syms = syms' ∧ rest = List.replicate k true := by
  obtain ⟨tail, rfl⟩ := prefix_of_reading (hbits.symm.trans hbits')
  replace hclear := huffClear_drop hclear
  rw [hbits, List.drop_left' rfl] at hclear
  rw [hbits, huffBits_append, List.append_assoc] at hbits'
  have hrest := List.append_cancel_left hbits'
  rcases tail with - | ⟨t, tail⟩
  · exact ⟨(List.append_nil syms).symm, hrest⟩
  · -- the next symbol would be found
    exfalso
    have ht : symBits t <+: rest := by
      rw [hrest]
      exact ⟨huffBits tail ++ List.replicate k true, (List.append_assoc ..).symm⟩
    have hle := ht.length_le
    rcases hend with rfl | hstuck
    · exact absurd (symBits_pos t) (Nat.not_lt.mpr hle)
    · have hlt := hstuck _ (lookup_of_symbol ht hclear.1)
      rw [length_symBits] at hle
      exact absurd hlt (Nat.not_lt.mpr hle)

/-! ### The result -/

/-- The decoder returns the number of symbols and has written them exactly for the strings
that are their codes and padding, and -1 for strings that are no such codes. -/
def HuffExact (huff : List UInt8) (olen : ℕ) : Prop :=
  (∀ syms, ((huffDec huff olen).ret = syms.length ∧
    (huffDec huff olen).written.take syms.length = syms) ↔ HuffValid huff syms) ∧
  ((¬ ∃ syms, HuffValid huff syms) → (huffDec huff olen).ret = -1)

/-- The output has room for the symbols of the input, and for one more. -/
def HuffRoom (huff : List UInt8) (olen : ℕ) : Prop :=
  ∀ syms, huffBits syms <+: bitsOf huff → syms.length < olen

/-- What the decoder does: the padding is tested in `code`, which are not the bits that are
left if the output was full. -/
theorem huffDec_run (huff : List UInt8) (olen : ℕ) :
    ∃ syms rest code, bitsOf huff = huffBits syms ++ rest ∧ huffClear syms (bitsOf huff) ∧
      huffDec huff olen =
        (if rest.length > 0 ∧
            (rest.length > 7 ∨ code &&& huffMask rest.length ≠ huffMask rest.length) then
          ⟨-1, syms⟩
        else ⟨syms.length, if syms.length < olen then syms ++ [0] else syms⟩) ∧
      (rest = [] ∨ syms.length = olen ∧ LastCode 0 code syms rest ∨
        code = bitsVal (window 32 rest) ∧ Stuck rest) := by
  set s₀ : HuffState := ⟨huff, 0, 0, 64, 0, 8 * huff.length, []⟩ with hs₀
  -- 64 zero bits in front of the input: the decoder starts behind them
  have hzeros (q : ℕ) (hq : q + 32 ≤ 64) :
      bitsVal (window 32 ((List.replicate 64 false ++ bitsOf huff).drop q)) = 0 := by
    have hwindow : window 32 ((List.replicate 64 false ++ bitsOf huff).drop q)
        = List.replicate 32 false := by
      rw [window, List.drop_append_of_le_length (by rw [List.length_replicate]; omega),
        List.drop_replicate, List.append_assoc, List.take_append_of_le_length
          (by rw [List.length_replicate]; omega), List.take_replicate]
      congr 1
      omega
    rw [hwindow, bitsVal_replicate_false]
  have hat : HuffAt (List.replicate 64 false ++ bitsOf huff) 0 s₀ :=
    ⟨(hzeros 0 (by decide)).symm, (hzeros (0 + 32) (by decide)).symm,
      (List.drop_left' (List.length_replicate ..)).symm⟩
  have hdrop : (List.replicate 64 false ++ bitsOf huff).drop (0 + s₀.shift) = bitsOf huff :=
    List.drop_left' (List.length_replicate ..)
  obtain ⟨syms, rest, hbits, hout, hleft, hclear, hend⟩ :=
    huffLoop_scanned olen (8 * huff.length) hat (by rw [hdrop, length_bitsOf]) (Nat.le_refl _)
  rw [hdrop] at hbits hclear
  rw [List.nil_append] at hout
  rw [hout] at hend
  refine ⟨syms, rest, _, hbits, hclear, ?_, hend⟩
  rw [huffDec, ← hs₀]
  simp only [hout, hleft]

/-- With room for all symbols, the bits that are left are tested. -/
theorem huffDec_scanned (hroom : HuffRoom huff olen) :
    ∃ syms rest, bitsOf huff = huffBits syms ++ rest ∧ huffClear syms (bitsOf huff) ∧
      (rest = [] ∨ Stuck rest) ∧
      huffDec huff olen = if rest.length ≤ 7 ∧ rest = List.replicate rest.length true then
        ⟨syms.length, syms ++ [0]⟩ else ⟨-1, syms⟩ := by
  obtain ⟨syms, rest, code, hbits, hclear, hrun, hend⟩ := huffDec_run huff olen
  have hlt : syms.length < olen := hroom syms ⟨rest, hbits.symm⟩
  have hend' : rest = [] ∨ code = bitsVal (window 32 rest) ∧ Stuck rest :=
    hend.imp id fun h => h.resolve_left fun hfull => hlt.ne hfull.1
  refine ⟨syms, rest, hbits, hclear, hend'.imp id And.right, ?_⟩
  rw [hrun, if_pos hlt]
  rcases hend' with rfl | ⟨hcode, -⟩
  · rw [if_neg (fun h => Nat.lt_irrefl 0 h.1), if_pos ⟨Nat.zero_le _, rfl⟩]
  · rw [hcode]
    by_cases hpad : rest.length ≤ 7 ∧ rest = List.replicate rest.length true
    · rw [if_pos hpad, if_neg]
      rintro ⟨-, hlong | hne⟩
      · omega
      · exact hne ((padding_iff hpad.1).mpr hpad.2)
    · rw [if_neg hpad, if_pos]
      have hne : rest ≠ [] := by
        rintro rfl
        exact hpad ⟨Nat.zero_le _, rfl⟩
      refine ⟨List.length_pos_iff.mpr hne, ?_⟩
      by_cases hle : rest.length ≤ 7
      · exact .inr fun heq => hpad ⟨hle, (padding_iff hle).mp heq⟩
      · exact .inl (Nat.lt_of_not_le hle)

/-- **When the decoder agrees with the code**: if the string is the codes of symbols and
padding, then behind each code of 30 bits there are two zero bits, or nothing. -/
theorem huffExact_iff (hroom : HuffRoom huff olen) :
    HuffExact huff olen ↔ ∀ syms, HuffValid huff syms → huffClear syms (bitsOf huff) := by
  obtain ⟨syms, rest, hbits, hclear, hend, hdec⟩ := huffDec_scanned hroom
  -- what the decoder returns is right
  have hsound : ∀ syms', (huffDec huff olen).ret = syms'.length →
      (huffDec huff olen).written.take syms'.length = syms' →
      syms' = syms ∧ HuffValid huff syms := by
    intro syms' hret hwritten
    rw [hdec] at hret hwritten
    split_ifs at hret hwritten with hpad
    · have hlen : syms.length = syms'.length := by
        simp only at hret
        omega
      simp only at hwritten
      rw [← hlen, List.take_left] at hwritten
      refine ⟨hwritten.symm, rest.length, hpad.1, ?_⟩
      rw [← hpad.2]
      exact hbits
    · simp only at hret
      omega
  constructor
  · intro hexact syms' hvalid
    obtain ⟨hret, hwritten⟩ := (hexact.1 syms').mpr hvalid
    rw [(hsound syms' hret hwritten).1]
    exact hclear
  · intro hcond
    have hvalid : ∀ syms', HuffValid huff syms' →
        syms = syms' ∧ rest.length ≤ 7 ∧ rest = List.replicate rest.length true := by
      rintro syms' ⟨k, hk, hbits'⟩
      obtain ⟨heq, hrest⟩ := reading_unique hbits hend hbits' (hcond syms' ⟨k, hk, hbits'⟩)
      refine ⟨heq, ?_, ?_⟩
      · rwa [hrest, List.length_replicate]
      · rw [hrest, List.length_replicate]
    refine ⟨fun syms' => ⟨fun h => ?_, fun h => ?_⟩, fun hnone => ?_⟩
    · obtain ⟨rfl, hv⟩ := hsound syms' h.1 h.2
      exact hv
    · obtain ⟨rfl, hpad⟩ := hvalid syms' h
      rw [hdec, if_pos hpad]
      exact ⟨rfl, List.take_left⟩
    · rw [hdec, if_neg]
      intro hpad
      refine hnone ⟨syms, rest.length, hpad.1, ?_⟩
      rw [← hpad.2]
      exact hbits

theorem huffRoom_of_lt (h : 8 * huff.length < olen) : HuffRoom huff olen := by
  intro syms hpref
  have hle := hpref.length_le
  rw [length_bitsOf] at hle
  have hsyms := length_le_huffBits syms
  omega

theorem HuffValid.unique {syms' : List UInt8} (h : HuffValid huff syms)
    (h' : HuffValid huff syms') : syms = syms' := by
  obtain ⟨k, -, hbits⟩ := h
  obtain ⟨k', -, hbits'⟩ := h'
  have hle := prefix_of_reading (hbits.symm.trans hbits')
  have hge := prefix_of_reading (hbits'.symm.trans hbits)
  exact hle.eq_of_length (Nat.le_antisymm hle.length_le hge.length_le)

/-- A line feed with two zero bits behind its code, and an "a". -/
theorem huffExact_iff_lineFeed : HuffValid [0xff, 0xff, 0xff, 0xf0, 0x7f] [10, 97] ∧
    HuffExact [0xff, 0xff, 0xff, 0xf0, 0x7f] 41 := by
  have hvalid : HuffValid [0xff, 0xff, 0xff, 0xf0, 0x7f] [10, 97] := ⟨5, by decide, by decide⟩
  refine ⟨hvalid, (huffExact_iff (huffRoom_of_lt (by decide))).mpr fun syms h => ?_⟩
  rw [h.unique hvalid]
  exact ⟨fun _ => by decide, fun h30 => absurd h30 (by decide), trivial⟩

/-- The code of a line feed and two bits of padding, in an output with room: the code has
30 bits, and the padding behind it is taken for EOS. -/
theorem not_huffExact : HuffRoom [0xff, 0xff, 0xff, 0xf3] 33 ∧
    HuffValid [0xff, 0xff, 0xff, 0xf3] [10] ∧ ¬ HuffExact [0xff, 0xff, 0xff, 0xf3] 33 := by
  have hvalid : HuffValid [0xff, 0xff, 0xff, 0xf3] [10] := ⟨2, by decide, by decide⟩
  refine ⟨huffRoom_of_lt (by decide), hvalid, fun hexact => ?_⟩
  have hret := ((hexact.1 [10]).mpr hvalid).1
  have hdec : (huffDec [0xff, 0xff, 0xff, 0xf3] 33).ret = -1 := by decide
  rw [hdec] at hret
  cases hret

end SmartHAProxy
