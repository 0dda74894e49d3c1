/-
Strings with Huffman codes (RFC 7541, 5.2): what an encoder writes for a string, and
what `huff_dec` makes of it in an output of a given size.

The codes are followed by one bits up to the end of a byte.  The loop of `huff_dec` is
left at the end of the codes, or when the output is full, and then the bits that are left
must be padding.  But they are looked for in `code`, which has been read for a symbol:
when the output is full, these are the bits of the last symbol that was written, and the
bits that are left are not looked at.  If there are seven of them at most, and the code
of that symbol begins with as many one bits, the beginning of the string is returned for
the string (`HuffCut`).  In all other cases it is the string, or there is an error.

* `bitsOf_huffEnc`: the bytes are the codes and the padding.
* `huffDecStr_huffEnc`: the string that is read is the one that was coded.
-/
import SmartHAProxy.Hpack.Huff

namespace SmartHAProxy

open scoped List

/-! ### What is written -/

/-- `n` bytes, from their bits. -/
def packBits : ℕ → List Bool → List UInt8
  | 0, _ => []
  | n + 1, bits => UInt8.ofNat (bitsVal (bits.take 8)) :: packBits n (bits.drop 8)

theorem bitsOf_packBits {n : ℕ} : ∀ {bits : List Bool}, bits.length = 8 * n →
    bitsOf (packBits n bits) = bits := by
  induction n with
  | zero =>
    intro bits hlen
    exact (List.length_eq_zero_iff.mp hlen).symm
  | succ n ih =>
    intro bits hlen
    have htake : (bits.take 8).length = 8 := by
      rw [List.length_take]
      omega
    have hlt := bitsVal_lt (bits.take 8)
    rw [htake] at hlt
    have hbyte : toBits 8 (UInt8.ofNat (bitsVal (bits.take 8))).toNat = bits.take 8 := by
      refine eq_of_bitsVal_eq ((length_toBits 8 _).trans htake.symm) ?_
      rw [bitsVal_toBits_of_lt (UInt8.toNat_lt _)]
      exact Nat.mod_eq_of_lt hlt
    show toBits 8 (UInt8.ofNat (bitsVal (bits.take 8))).toNat ++ bitsOf (packBits n _) = _
    rw [hbyte, ih (by rw [List.length_drop]; omega), List.take_append_drop]

/-- The number of bits behind the codes. -/
def huffPad (s : List UInt8) : ℕ := (8 - (huffBits s).length % 8) % 8

def huffEnc (s : List UInt8) : List UInt8 :=
  packBits (((huffBits s).length + huffPad s) / 8) (huffBits s ++ List.replicate (huffPad s) true)

theorem bitsOf_huffEnc (s : List UInt8) :
    bitsOf (huffEnc s) = huffBits s ++ List.replicate (huffPad s) true := by
  have hpad : huffPad s = (8 - (huffBits s).length % 8) % 8 := rfl
  refine bitsOf_packBits ?_
  rw [List.length_append, List.length_replicate]
  omega

/-! ### What is read -/

/-- The string that the caller of `huff_dec` has in an output of `room` bytes. -/
def huffDecStr (huff : List UInt8) (room : ℕ) : Option (List UInt8) :=
  if (huffDec huff room).ret = -1 then none
  else some ((huffDec huff room).written.take (huffDec huff room).ret.toNat)

/-- How many bits are left behind the codes of the first `room` symbols. -/
def huffLeft (s : List UInt8) (room : ℕ) : ℕ := (huffBits (s.drop room)).length + huffPad s

/-- The first `room` symbols are taken for the whole string: at most seven bits are left
behind them, and the code of the last of them begins with as many one bits. -/
def HuffCut (s : List UInt8) (room : ℕ) : Prop :=
  room < s.length ∧ huffLeft s room ≤ 7 ∧
    List.replicate (huffLeft s room) true <+: symBits (s.getD (room - 1) 0)

instance decidableHuffCut (s : List UInt8) (room : ℕ) : Decidable (HuffCut s room) :=
  inferInstanceAs (Decidable (_ ∧ _ ∧ _))

/-- Fewer one bits than the code of `x` has are its first bits. -/
theorem ones_prefix_symBits {k : ℕ} {x : UInt8} {rest : List Bool} (hk : k ≤ 32)
    (hle : k ≤ rest.length)
    (h : bitsVal (window 32 (symBits x ++ rest)) &&& huffMask k = huffMask k) :
    List.replicate k true <+: symBits x := by
  have hones : List.replicate k true <+: symBits x ++ rest := by
    refine prefix_of_window ((land_window_iff _ hk).mp h) ?_
    rw [List.length_replicate, List.length_append]
    omega
  rcases List.prefix_or_prefix_of_prefix hones (List.prefix_append _ rest) with hp | hp
  · exact hp
  · exact absurd hp (not_symBits_prefix_ones x k)

/-- **The string that is read is the one that was coded**, unless it is cut. -/
theorem huffDecStr_huffEnc {s s' : List UInt8} {room : ℕ} (hroom : 0 < room)
    (hdec : huffDecStr (huffEnc s) room = some s') (hcut : ¬ HuffCut s room) : s' = s := by
  obtain ⟨syms, rest, code, hbits, -, hrun, hend⟩ := huffDec_run (huffEnc s) room
  rw [bitsOf_huffEnc] at hbits
  obtain ⟨tail, rfl⟩ := prefix_of_reading hbits.symm
  have hrest : rest = huffBits tail ++ List.replicate (huffPad (syms ++ tail)) true := by
    rw [huffBits_append, List.append_assoc] at hbits
    exact (List.append_cancel_left hbits).symm
  rw [huffDecStr, hrun] at hdec
  by_cases hbad : rest.length > 0 ∧
      (rest.length > 7 ∨ code &&& huffMask rest.length ≠ huffMask rest.length)
  · rw [if_pos hbad] at hdec
    exact absurd hdec (by simp)
  rw [if_neg hbad, if_neg (by simp)] at hdec
  have hs' : s' = syms := by
    rw [← Option.some.inj hdec]
    dsimp only
    split_ifs
    · exact List.take_left
    · exact List.take_length
  rcases tail with - | ⟨x, tail⟩
  · rw [hs', List.append_nil]
  -- a symbol is left: the output was full
  have hx : symBits x <+: rest := by
    rw [hrest]
    exact ⟨huffBits tail ++ List.replicate _ true, (List.append_assoc ..).symm⟩
  have hpos : 0 < rest.length := Nat.lt_of_lt_of_le (symBits_pos x) hx.length_le
  simp only [not_and_or, not_or, Nat.not_lt, not_not, Nat.le_zero, hpos.ne', false_or] at hbad
  obtain ⟨hle, hmask⟩ := hbad
  rcases hend with rfl | ⟨hfull, ⟨rfl, -⟩ | ⟨pre, y, rfl, rfl⟩⟩ | ⟨rfl, -⟩
  · exact absurd hpos (Nat.lt_irrefl 0)
  · exact absurd hroom (Nat.not_lt.mpr (Nat.le_of_eq hfull.symm))
  · have hleft : huffLeft (pre ++ [y] ++ x :: tail) room = rest.length := by
      rw [huffLeft, ← hfull, List.drop_left' rfl, hrest, List.length_append, List.length_replicate]
    have hlast : (pre ++ [y] ++ x :: tail).getD (room - 1) 0 = y := by
      rw [← hfull]
      simp
    refine absurd ⟨?_, ?_, ?_⟩ hcut
    · rw [← hfull]
      simp
    · rwa [hleft]
    · rw [hleft, hlast]
      exact ones_prefix_symBits (by omega) (Nat.le_refl _) hmask
  · rw [(padding_iff hle).mp hmask] at hx
    exact absurd hx (not_symBits_prefix_ones x _)

end SmartHAProxy
