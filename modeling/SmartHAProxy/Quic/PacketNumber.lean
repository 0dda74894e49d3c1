/-
Truncated packet numbers of QUIC (xprt_quic.h, xprt_quic.c).

The sender writes the low bytes of a packet number, as many as the distance from the
largest acknowledged number asks for.  The receiver looks for the number with these low
bytes around the one it expects, which is behind the largest number it has received.
`decode_encode` says that it finds the number: the two references may differ, as long as
the receiver has not gone on by half a window.
-/
import Mathlib.Algebra.Order.Ring.Int
import Mathlib.Data.Nat.Bitwise
import SmartHAProxy.Lib.Codec

namespace SmartHAProxy

variable {k pn : ℕ} {t : UInt32}

namespace Quic

/-! ### The source -/

def quicPacketNumberLength (pn largestAckedPn : ℤ) : ℕ :=
  let maxNackPkts := 2 * (pn - largestAckedPn) + 1
  if maxNackPkts > 0xffffff then 4
  else if maxNackPkts > 0xffff then 3
  else if maxNackPkts > 0xff then 2
  else 1

/-- What `quic_packet_number_encode` writes. -/
def quicPacketNumberEncode (pn : ℕ) : ℕ → List UInt8
  | 1 => [UInt8.ofNat pn]
  | 2 => [UInt8.ofNat (pn >>> 8), UInt8.ofNat pn]
  | 3 => [UInt8.ofNat (pn >>> 16), UInt8.ofNat (pn >>> 8), UInt8.ofNat pn]
  | 4 => [UInt8.ofNat (pn >>> 24), UInt8.ofNat (pn >>> 16), UInt8.ofNat (pn >>> 8),
      UInt8.ofNat pn]
  | _ => []

/-- The loop of `qc_do_rm_hp` over the bytes of the number. -/
def truncatedPn (pn : List UInt8) : UInt32 :=
  pn.foldl (fun truncatedPn b => truncatedPn <<< 8 ||| b.toUInt32) 0

def quicMaxPacketNum : UInt64 := ((1 : UInt64) <<< 62) - 1

def decodePacketNumber (largestPn : UInt64) (truncatedPn : UInt32) (pnNbits : UInt64) : UInt64 :=
  let expectedPn := largestPn + 1
  let pnWin := (1 : UInt64) <<< pnNbits
  let pnHwin := pnWin / 2
  let pnMask := pnWin - 1
  let candidatePn := (expectedPn &&& ~~~pnMask) ||| truncatedPn.toUInt64
  if candidatePn < quicMaxPacketNum - pnWin ∧ candidatePn + pnHwin ≤ expectedPn then
    candidatePn + pnWin
  else if expectedPn + pnHwin < candidatePn ∧ pnWin ≤ candidatePn then
    candidatePn - pnWin
  else candidatePn

/-! ### The encoder -/

theorem quicPacketNumberLength_spec {pn la : ℤ} (h : pn - la < 2 ^ 31) :
    ∃ k < 4, quicPacketNumberLength pn la = k + 1 ∧ 2 * (pn - la) + 1 < 2 ^ (8 * (k + 1)) := by
  rw [quicPacketNumberLength]
  split_ifs with h4 h3 h2
  · exact ⟨3, by omega, rfl, by omega⟩
  · exact ⟨2, by omega, rfl, by omega⟩
  · exact ⟨1, by omega, rfl, by omega⟩
  · exact ⟨0, by omega, rfl, by omega⟩

theorem quicPacketNumberEncode_eq (pn : ℕ) (hk : k < 4) :
    quicPacketNumberEncode pn (k + 1) = beBytes (k + 1) pn := by
  rcases k with - | - | - | - | k
  · rfl
  · rfl
  · rfl
  · rfl
  · omega

theorem toNat_truncatedPn_step {b : UInt8} (h : t.toNat < 2 ^ 24) :
    (t <<< 8 ||| b.toUInt32).toNat = (t.toNat <<< 8) ||| b.toNat := by
  have hb : b.toUInt32.toNat = b.toNat := by simp
  rw [UInt32.toNat_or, UInt32.toNat_shiftLeft, hb, Nat.mod_eq_of_lt (by
    show t.toNat <<< 8 < 2 ^ 32
    rw [Nat.shiftLeft_eq]
    omega)]
  rfl

theorem toNat_foldl_truncatedPn {bs : List UInt8} {n : ℕ} (hn : n + bs.length ≤ 4)
    (ht : t.toNat < 2 ^ (8 * n)) :
    (List.foldl (fun (t : UInt32) (b : UInt8) => t <<< 8 ||| b.toUInt32) t bs).toNat =
      beFold t.toNat bs := by
  induction bs generalizing t n with
  | nil => rfl
  | cons b bs ih =>
    rw [List.length_cons] at hn
    have h24 : t.toNat < 2 ^ 24 :=
      Nat.lt_of_lt_of_le ht (Nat.pow_le_pow_right (by omega) (by omega))
    have hstep := toNat_truncatedPn_step (b := b) h24
    have hb := b.toNat_lt
    have hpow : 2 ^ (8 * (n + 1)) = 2 ^ (8 * n) * 256 := Nat.pow_add 2 (8 * n) 8
    have hlt : (t <<< 8 ||| b.toUInt32).toNat < 2 ^ (8 * (n + 1)) := by
      rw [hstep, ← Nat.shiftLeft_add_eq_or_of_lt hb, Nat.shiftLeft_eq, hpow]
      omega
    rw [List.foldl_cons, ih (by omega) hlt, hstep]
    rfl

/-- **The receiver reads the low bytes of the number.** -/
theorem toNat_truncatedPn_encode (pn : ℕ) (hk : k < 4) :
    (truncatedPn (quicPacketNumberEncode pn (k + 1))).toNat = pn % 2 ^ (8 * (k + 1)) := by
  have hlen : 0 + (beBytes (k + 1) pn).length ≤ 4 := by
    rw [length_beBytes]
    omega
  rw [quicPacketNumberEncode_eq pn hk, truncatedPn, toNat_foldl_truncatedPn hlen (by decide)]
  show beFold 0 _ = _
  rw [beFold_beBytes, Nat.zero_mul, Nat.zero_add]

/-! ### The decoder -/

theorem toNat_candidate (x t : UInt64) (hk : k < 64) (ht : t.toNat < 2 ^ k) {w : UInt64}
    (hw : w.toNat = 2 ^ k) :
    ((x &&& ~~~(w - 1)) ||| t).toNat = 2 ^ k * (x.toNat / 2 ^ k) + t.toNat := by
  have hx := x.toNat_lt
  have hlt : 2 ^ k - 1 < 2 ^ 64 := by
    have := Nat.pow_lt_pow_right (show 1 < 2 by omega) hk
    omega
  have hmask : (~~~(w - 1)).toNat = 2 ^ 64 - (2 ^ k - 1 + 1) := by
    have hpos := Nat.two_pow_pos k
    have hle : (1 : UInt64) ≤ w := by
      rw [UInt64.le_iff_toNat_le, hw]
      exact hpos
    rw [UInt64.toNat_not, UInt64.toNat_sub_of_le _ _ hle, hw]
    show 2 ^ 64 - 1 - (2 ^ k - 1) = _
    omega
  rw [UInt64.toNat_or, UInt64.toNat_and, hmask]
  apply Nat.eq_of_testBit_eq
  intro i
  rw [Nat.testBit_or, Nat.testBit_and, Nat.testBit_two_pow_sub_succ hlt,
    Nat.testBit_two_pow_sub_one, Nat.testBit_two_pow_mul_add _ ht]
  by_cases hi : i < k
  · simp [hi]
  · have htop : t.toNat.testBit i = false :=
      Nat.testBit_lt_two_pow
        (Nat.lt_of_lt_of_le ht (Nat.pow_le_pow_right (by omega) (by omega)))
    rw [if_neg hi, htop, Bool.or_false, Nat.testBit_div_two_pow, Nat.sub_add_cancel (by omega)]
    by_cases h64 : i < 64
    · simp [hi, h64]
    · -- there are no bits from 64 on
      have hxtop : x.toNat.testBit i = false :=
        Nat.testBit_lt_two_pow (Nat.lt_of_lt_of_le hx (Nat.pow_le_pow_right (by omega) (by omega)))
      rw [hxtop, Bool.false_and]

theorem toNat_pnWin (hk : k < 4) :
    ((1 : UInt64) <<< UInt64.ofNat (8 * (k + 1))).toNat = 2 ^ (8 * (k + 1)) ∧
      ((1 : UInt64) <<< UInt64.ofNat (8 * (k + 1)) / 2).toNat = 2 ^ (8 * (k + 1)) / 2 ∧
      (quicMaxPacketNum - (1 : UInt64) <<< UInt64.ofNat (8 * (k + 1))).toNat =
        2 ^ 62 - 1 - 2 ^ (8 * (k + 1)) := by
  have hall : ∀ k < 4,
      ((1 : UInt64) <<< UInt64.ofNat (8 * (k + 1))).toNat = 2 ^ (8 * (k + 1)) ∧
        ((1 : UInt64) <<< UInt64.ofNat (8 * (k + 1)) / 2).toNat = 2 ^ (8 * (k + 1)) / 2 ∧
        (quicMaxPacketNum - (1 : UInt64) <<< UInt64.ofNat (8 * (k + 1))).toNat =
          2 ^ 62 - 1 - 2 ^ (8 * (k + 1)) := by
    decide
  exact hall k hk

theorem window_cases {w e : ℕ} (hw : 0 < w) (h1 : pn < e + w) (h2 : e < pn + w) :
    w * (e / w) + pn % w = pn ∨ w * (e / w) + pn % w + w = pn ∨
      w * (e / w) + pn % w = pn + w := by
  have hpn := Nat.div_add_mod pn w
  have hle1 : pn / w ≤ e / w + 1 := by
    rw [← Nat.add_div_right e hw]
    exact Nat.div_le_div_right (Nat.le_of_lt h1)
  have hle2 : e / w ≤ pn / w + 1 := by
    rw [← Nat.add_div_right pn hw]
    exact Nat.div_le_div_right (Nat.le_of_lt h2)
  have hcases : pn / w = e / w ∨ pn / w = e / w + 1 ∨ e / w = pn / w + 1 := by omega
  rcases hcases with h | h | h
  · rw [← h]
    exact .inl hpn
  · rw [h, Nat.mul_succ] at hpn
    exact .inr (.inl (by omega))
  · rw [h, Nat.mul_succ]
    exact .inr (.inr (by omega))

theorem maxPacketNum_mod (hk : k < 4) :
    (2 ^ 62 - 1) % 2 ^ (8 * (k + 1)) = 2 ^ (8 * (k + 1)) - 1 := by
  have hall : ∀ k < 4, (2 ^ 62 - 1) % 2 ^ (8 * (k + 1)) = 2 ^ (8 * (k + 1)) - 1 := by decide
  exact hall k hk

theorem toNat_expectedPn {r : ℤ} (hr : -1 ≤ r) (hlt : r < 2 ^ 63) :
    ((UInt64.ofInt r + 1).toNat : ℤ) = r + 1 := by
  rw [UInt64.toNat_add, UInt64.ofInt, UInt64.toNat_ofNat']
  show (((r % 2 ^ 64).toNat % 2 ^ 64 + 1) % 2 ^ 64 : ℕ) = r + 1
  omega

/-- **The decoder finds the number** with these low bits that is less than half a window
away from the expected one. -/
theorem toNat_decodePacketNumber (hk : k < 4) {x : UInt64} (hpn : pn < 2 ^ 62)
    (ht : t.toNat = pn % 2 ^ (8 * (k + 1))) (hlow : (x + 1).toNat < pn + 2 ^ (8 * (k + 1)) / 2)
    (hhigh : pn + 2 ≤ (x + 1).toNat + 2 ^ (8 * (k + 1)) / 2) :
    (decodePacketNumber x t (UInt64.ofNat (8 * (k + 1)))).toNat = pn := by
  obtain ⟨hwin, hhwin, hmax⟩ := toNat_pnWin hk
  have hbits : 8 * (k + 1) < 64 := by omega
  have htlt : t.toUInt64.toNat < 2 ^ (8 * (k + 1)) := by
    rw [UInt32.toNat_toUInt64, ht]
    exact Nat.mod_lt _ (Nat.two_pow_pos _)
  have hcand := toNat_candidate (x + 1) t.toUInt64 hbits htlt hwin
  rw [UInt32.toNat_toUInt64, ht] at hcand
  rw [decodePacketNumber]
  generalize (1 : UInt64) <<< UInt64.ofNat (8 * (k + 1)) = w at *
  generalize x + 1 = expected at *
  generalize ((expected &&& ~~~(w - 1)) ||| t.toUInt64) = cand at *
  have heven : 2 * (2 ^ (8 * (k + 1)) / 2) = 2 ^ (8 * (k + 1)) := by
    rw [Nat.mul_succ, Nat.pow_add]
    omega
  have hlt32 : 2 ^ (8 * (k + 1)) ≤ 2 ^ 32 := Nat.pow_le_pow_right (by omega) (by omega)
  have hmod := maxPacketNum_mod hk
  have hdiv := Nat.div_add_mod expected.toNat (2 ^ (8 * (k + 1)))
  have hpos := Nat.two_pow_pos (8 * (k + 1))
  have hrem := Nat.mod_lt expected.toNat hpos
  generalize 2 ^ (8 * (k + 1)) = win at *
  generalize win / 2 = hwn at *
  -- the candidate is the number, or one window away from it
  have hcases := window_cases hpos (show pn < expected.toNat + win by omega) (by omega)
  rw [← hcand] at hcases
  have hcadd : (cand + w / 2).toNat = cand.toNat + hwn := by
    rw [UInt64.toNat_add, hhwin]
    exact Nat.mod_eq_of_lt (by omega)
  have headd : (expected + w / 2).toNat = expected.toNat + hwn := by
    rw [UInt64.toNat_add, hhwin]
    exact Nat.mod_eq_of_lt (by omega)
  simp only [UInt64.lt_iff_toNat_lt, UInt64.le_iff_toNat_le, hcadd, headd, hmax, hwin]
  by_cases hup : cand.toNat + win = pn
  · have hnot : pn ≠ 2 ^ 62 - 1 := by
      rintro rfl
      rw [hmod] at hcand
      omega
    rw [if_pos (by omega), UInt64.toNat_add, hwin, hup]
    exact Nat.mod_eq_of_lt (by omega)
  · rw [if_neg (by omega)]
    by_cases hdown : cand.toNat = pn + win
    · have hle : w ≤ cand := by
        rw [UInt64.le_iff_toNat_le, hwin]
        omega
      rw [if_pos (by omega), UInt64.toNat_sub_of_le _ _ hle, hwin]
      omega
    · rw [if_neg (by omega)]
      omega

/-! ### The round trip -/

/-- **Packet numbers survive truncation**, if the receiver has seen the largest
acknowledged number and is less than half a window ahead. -/
theorem decode_encode {la r : ℤ} (hpn : pn < 2 ^ 62) (hla : -1 ≤ la) (hlt : la < pn)
    (hgap : pn - la < 2 ^ 31) (hr : la ≤ r)
    (hahead : r + 1 < pn + 2 ^ (8 * quicPacketNumberLength pn la - 1)) :
    (decodePacketNumber (UInt64.ofInt r)
      (truncatedPn (quicPacketNumberEncode pn (quicPacketNumberLength pn la)))
      (UInt64.ofNat (8 * quicPacketNumberLength pn la))).toNat = pn := by
  obtain ⟨k, hk, hlen, hfit⟩ := quicPacketNumberLength_spec hgap
  rw [hlen] at hahead ⊢
  have hhalf : 2 ^ (8 * (k + 1)) / 2 = 2 ^ (8 * (k + 1) - 1) := by
    rw [show 8 * (k + 1) = 8 * k + 7 + 1 by omega, Nat.pow_succ, Nat.add_sub_cancel,
      Nat.mul_div_cancel _ (by omega)]
  have hpow : 2 ^ (8 * (k + 1)) = 2 * 2 ^ (8 * (k + 1) - 1) := by
    rw [show 8 * (k + 1) = 8 * k + 7 + 1 by omega, Nat.pow_succ, Nat.add_sub_cancel, Nat.mul_comm]
  have hlt31 : 2 ^ (8 * (k + 1) - 1) ≤ 2 ^ 31 := Nat.pow_le_pow_right (by omega) (by omega)
  have hcast : ((2 ^ (8 * (k + 1) - 1) : ℕ) : ℤ) = 2 ^ (8 * (k + 1) - 1) := by push_cast; rfl
  have hexpected : ((UInt64.ofInt r + 1).toNat : ℤ) = r + 1 :=
    toNat_expectedPn (by omega) (by omega)
  have hpowz : (2 : ℤ) ^ (8 * (k + 1)) = 2 * 2 ^ (8 * (k + 1) - 1) := by exact_mod_cast hpow
  apply toNat_decodePacketNumber hk hpn (toNat_truncatedPn_encode pn hk)
  · rw [hhalf]
    omega
  · rw [hhalf]
    omega

/-- A late packet of the window before. -/
theorem decode_encode_late :
    (decodePacketNumber (UInt64.ofInt 300)
      (truncatedPn (quicPacketNumberEncode 254 (quicPacketNumberLength (254 : ℕ) 200)))
      (UInt64.ofNat (8 * quicPacketNumberLength (254 : ℕ) 200))).toNat = 254 :=
  decode_encode (by decide) (by decide) (by decide) (by decide) (by decide) (by decide)

end Quic

end SmartHAProxy
