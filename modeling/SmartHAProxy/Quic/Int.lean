/-
Variable-length integers of QUIC (xprt_quic.h).

The two high bits of the first byte give the length, which is 1, 2, 4 or 8 bytes.
`builds_quicEncInt` and `parses_quicDecInt` say that encoder and decoder agree on
`quicInt`, the bytes of a number below 2^62; everything else is about sizes.
-/
import SmartHAProxy.Lib.Codec

namespace SmartHAProxy

variable {val : ℕ}

namespace Quic

/-! ### The source -/

/-- `QUIC_VARINT_1_BYTE_MAX` and its like. -/
def varint1ByteMax : ℕ := 2 ^ 6 - 1
def varint2ByteMax : ℕ := 2 ^ 14 - 1
def varint4ByteMax : ℕ := 2 ^ 30 - 1
def varint8ByteMax : ℕ := 2 ^ 62 - 1

/-- `quic_log2`, for the sizes of integers. -/
def quicLog2 (val : ℕ) : ℕ :=
  if val = 8 then 3 else if val = 4 then 2 else if val = 2 then 1 else 0

/-- `quic_int_getsize`: 0 if the number is out of range. -/
def quicIntGetsize (val : ℕ) : ℕ :=
  if val ≤ varint1ByteMax then 1
  else if val ≤ varint2ByteMax then 2
  else if val ≤ varint4ByteMax then 4
  else if val ≤ varint8ByteMax then 8
  else 0

def quicDecintSizeDiff (val : ℕ) : ℕ :=
  if val = varint1ByteMax + 1 then 1
  else if val = varint2ByteMax + 1 then 2
  else if val = varint4ByteMax + 1 then 4
  else 0

/-- What `quic_enc_int` writes: the bytes of the number, with the length in the first one. -/
def quicInt (val : ℕ) : List UInt8 :=
  match beBytes (quicIntGetsize val) val with
  | [] => []
  | head :: tail => (head ||| UInt8.ofNat (quicLog2 (quicIntGetsize val) <<< 6)) :: tail

def quicEncInt (buf : OutBuf) (val : ℕ) : Option OutBuf :=
  let len := quicIntGetsize val
  if len = 0 ∨ buf.room < len then none else some (buf.put (quicInt val))

def quicDecInt : List UInt8 → Option (ℕ × List UInt8)
  | [] => none
  | b :: buf =>
    let len := 1 <<< (b.toNat >>> 6)
    if buf.length + 1 < len then none
    else some (beFold (b &&& 0x3f).toNat (buf.take (len - 1)), buf.drop (len - 1))

/-! ### Sizes -/

theorem quicIntGetsize_spec (val : ℕ) :
    val < 64 ∧ quicIntGetsize val = 1 ∨ 64 ≤ val ∧ val < 16384 ∧ quicIntGetsize val = 2 ∨
      16384 ≤ val ∧ val < 2 ^ 30 ∧ quicIntGetsize val = 4 ∨
      2 ^ 30 ≤ val ∧ val < 2 ^ 62 ∧ quicIntGetsize val = 8 ∨
      2 ^ 62 ≤ val ∧ quicIntGetsize val = 0 := by
  rw [quicIntGetsize, varint1ByteMax, varint2ByteMax, varint4ByteMax, varint8ByteMax]
  by_cases h1 : val ≤ 2 ^ 6 - 1
  · rw [if_pos h1]
    omega
  by_cases h2 : val ≤ 2 ^ 14 - 1
  · rw [if_neg h1, if_pos h2]
    omega
  by_cases h4 : val ≤ 2 ^ 30 - 1
  · rw [if_neg h1, if_neg h2, if_pos h4]
    omega
  by_cases h8 : val ≤ 2 ^ 62 - 1
  · rw [if_neg h1, if_neg h2, if_neg h4, if_pos h8]
    omega
  · rw [if_neg h1, if_neg h2, if_neg h4, if_neg h8]
    omega

theorem quicIntGetsize_cases (h : val < 2 ^ 62) :
    ∃ k < 4, quicIntGetsize val = 2 ^ k ∧ val < 2 ^ (8 * 2 ^ k - 2) := by
  rcases quicIntGetsize_spec val with ⟨hv, hs⟩ | ⟨-, hv, hs⟩ | ⟨-, hv, hs⟩ | ⟨-, hv, hs⟩ | ⟨hv, -⟩
  · exact ⟨0, by omega, hs, hv⟩
  · exact ⟨1, by omega, hs, hv⟩
  · exact ⟨2, by omega, hs, hv⟩
  · exact ⟨3, by omega, hs, hv⟩
  · exact absurd h (Nat.not_lt.mpr hv)

theorem quicIntGetsize_pos (h : val < 2 ^ 62) : 0 < quicIntGetsize val := by
  have hspec := quicIntGetsize_spec val
  omega

theorem quicIntGetsize_eq_zero (h : 2 ^ 62 ≤ val) : quicIntGetsize val = 0 := by
  have hspec := quicIntGetsize_spec val
  omega

theorem quicIntGetsize_le (val : ℕ) : quicIntGetsize val ≤ 8 := by
  have hspec := quicIntGetsize_spec val
  omega

theorem quicIntGetsize_mono {m n : ℕ} (h : m ≤ n) (hn : n < 2 ^ 62) :
    quicIntGetsize m ≤ quicIntGetsize n := by
  have hm := quicIntGetsize_spec m
  have hn := quicIntGetsize_spec n
  omega

theorem quicDecintSizeDiff_spec (val : ℕ) :
    val = 64 ∧ quicDecintSizeDiff val = 1 ∨ val = 16384 ∧ quicDecintSizeDiff val = 2 ∨
      val = 2 ^ 30 ∧ quicDecintSizeDiff val = 4 ∨
      val ≠ 64 ∧ val ≠ 16384 ∧ val ≠ 2 ^ 30 ∧ quicDecintSizeDiff val = 0 := by
  rw [quicDecintSizeDiff, varint1ByteMax, varint2ByteMax, varint4ByteMax]
  by_cases h1 : val = 2 ^ 6 - 1 + 1
  · rw [if_pos h1]
    omega
  by_cases h2 : val = 2 ^ 14 - 1 + 1
  · rw [if_neg h1, if_pos h2]
    omega
  by_cases h4 : val = 2 ^ 30 - 1 + 1
  · rw [if_neg h1, if_neg h2, if_pos h4]
    omega
  · rw [if_neg h1, if_neg h2, if_neg h4]
    omega

theorem quicIntGetsize_succ (val : ℕ) (h : val + 1 < 2 ^ 62) :
    quicIntGetsize (val + 1) = quicIntGetsize val + quicDecintSizeDiff (val + 1) := by
  have hspec := quicIntGetsize_spec val
  have hsucc := quicIntGetsize_spec (val + 1)
  have hdiff := quicDecintSizeDiff_spec (val + 1)
  omega

@[simp] theorem length_quicInt (val : ℕ) : (quicInt val).length = quicIntGetsize val := by
  rw [quicInt]
  split
  · rename_i h
    rw [← length_beBytes (quicIntGetsize val) val, h]
  · rename_i head tail h
    rw [← length_beBytes (quicIntGetsize val) val, h]
    rfl

/-! ### Round trip -/

theorem firstByte {h k : ℕ} (hh : h < 64) (hk : k < 4) :
    (UInt8.ofNat h ||| UInt8.ofNat (k <<< 6)).toNat >>> 6 = k ∧
      ((UInt8.ofNat h ||| UInt8.ofNat (k <<< 6)) &&& 0x3f).toNat = h := by
  have hall : ∀ k < 4, ∀ h < 64, (UInt8.ofNat h ||| UInt8.ofNat (k <<< 6)).toNat >>> 6 = k ∧
      ((UInt8.ofNat h ||| UInt8.ofNat (k <<< 6)) &&& 0x3f).toNat = h := by
    decide +kernel
  exact hall k hk h hh

theorem quicLog2_two_pow {k : ℕ} (h : k < 4) : quicLog2 (2 ^ k) = k := by
  have hall : ∀ k < 4, quicLog2 (2 ^ k) = k := by decide
  exact hall k h

theorem quicInt_eq {k n : ℕ} (hk : k < 4) (hsize : quicIntGetsize val = 2 ^ k)
    (hn : 2 ^ k = n + 1) :
    quicInt val = (UInt8.ofNat (val >>> (8 * n)) ||| UInt8.ofNat (k <<< 6)) :: beBytes n val := by
  rw [quicInt, hsize, quicLog2_two_pow hk, hn]
  rfl

/-- **The decoder reads what the encoder wrote.** -/
theorem parses_quicDecInt (h : val < 2 ^ 62) : Parses quicDecInt (quicInt val) val := by
  intro rest
  obtain ⟨k, hk, hsize, hlt⟩ := quicIntGetsize_cases h
  obtain ⟨n, hn⟩ : ∃ n, 2 ^ k = n + 1 := Nat.exists_eq_add_one.mpr (Nat.two_pow_pos k)
  have hpow : 2 ^ (8 * 2 ^ k - 2) = 64 * 2 ^ (8 * n) := by
    rw [hn, show 8 * (n + 1) - 2 = 6 + 8 * n by omega, Nat.pow_add]
  have hhead : val >>> (8 * n) < 64 := by
    rw [Nat.shiftRight_eq_div_pow]
    exact Nat.div_lt_of_lt_mul (by rwa [Nat.mul_comm, ← hpow])
  obtain ⟨hlog, hbits⟩ := firstByte hhead hk
  rw [quicInt_eq hk hsize hn, List.cons_append, quicDecInt]
  simp only [hlog, hbits]
  have hlen : 1 <<< k = n + 1 := by rw [Nat.shiftLeft_eq, Nat.one_mul, hn]
  have hfit : ¬ (beBytes n val ++ rest).length + 1 < 1 <<< k := by
    rw [hlen, List.length_append, length_beBytes]
    omega
  have hvalue : beFold (val >>> (8 * n)) (beBytes n val) = val := by
    rw [beFold_beBytes, Nat.shiftRight_eq_div_pow, Nat.mul_comm]
    exact Nat.div_add_mod val _
  rw [if_neg hfit, hlen, Nat.add_sub_cancel, List.take_left' (length_beBytes n val),
    List.drop_left' (length_beBytes n val), hvalue]

@[simp] theorem quicDecInt_append (h : val < 2 ^ 62) (rest : List UInt8) :
    quicDecInt (quicInt val ++ rest) = some (val, rest) := parses_quicDecInt h rest

/-- **The encoder writes the bytes of the number, if they fit.** -/
theorem builds_quicEncInt (h : val < 2 ^ 62) :
    Builds (fun b => quicEncInt b val) (quicInt val) := by
  intro l size hl
  have hpos := quicIntGetsize_pos h
  show quicEncInt (.of l size) val = _
  rw [quicEncInt, OutBuf.room_of, OutBuf.put_of, length_quicInt]
  by_cases hfit : l.length + quicIntGetsize val ≤ size
  · rw [if_neg (by omega), if_pos hfit]
  · rw [if_pos (by omega), if_neg hfit]

end Quic

end SmartHAProxy
