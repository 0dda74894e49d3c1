/-
Integers of variable length.

A number below 240 is one byte.  A larger one starts with a byte that has its
four high bits set and the number's four low bits; what is left is written in
groups of seven bits, all but the last one with the high bit set.  At each step
the offset that the high bits stand for is taken off first, so that every number
has one form.

The encoder stops when the room is used up, the decoder when the data ends.  The
decoder adds modulo `2 ^ 64`, and its shift counts are taken modulo 64, as the
processor does for a number with more groups than 64 bits have.

* `encodeVarint_eq_some_iff`: the encoder writes `varint i` if there is room;
* `decodeVarint_varint`: the decoder reads it back, and what follows is left.
-/
import Mathlib.Tactic.Ring

namespace SmartHAProxy

/-! ### Encoder and decoder -/

def encodeVarintLoop : ℕ → ℕ → Option (List UInt8)
  | 0, _ => none
  | room + 1, i =>
    if 128 ≤ i then
      (encodeVarintLoop room ((i - 128) >>> 7)).map (UInt8.ofNat (i ||| 128) :: ·)
    else some [UInt8.ofNat i]

/-- The bytes that are written into `room` bytes for the number `i`. -/
def encodeVarint : ℕ → ℕ → Option (List UInt8)
  | 0, _ => none
  | room + 1, i =>
    if i < 240 then some [UInt8.ofNat i]
    else (encodeVarintLoop room ((i - 240) >>> 4)).map (UInt8.ofNat (i ||| 240) :: ·)

/-- The loop of the decoder: the value so far and the shift count. -/
def decodeVarintLoop (i : UInt64) (r : ℕ) : List UInt8 → Option (UInt64 × List UInt8)
  | [] => none
  | b :: data =>
    let i' := i + b.toUInt64 <<< UInt64.ofNat r
    if 128 ≤ b then decodeVarintLoop i' (r + 7) data else some (i', data)

/-- The number at the start of the data, and what follows it. -/
def decodeVarint : List UInt8 → Option (UInt64 × List UInt8)
  | [] => none
  | b :: data => if b < 240 then some (b.toUInt64, data) else decodeVarintLoop b.toUInt64 4 data

/-! ### The form of a number -/

def varintGroups (i : ℕ) : List UInt8 :=
  if 128 ≤ i then UInt8.ofNat (i ||| 128) :: varintGroups ((i - 128) >>> 7) else [UInt8.ofNat i]
termination_by i
decreasing_by
  rw [Nat.shiftRight_eq_div_pow]
  omega

def varint (i : ℕ) : List UInt8 :=
  if i < 240 then [UInt8.ofNat i]
  else UInt8.ofNat (i ||| 240) :: varintGroups ((i - 240) >>> 4)

theorem encodeVarintLoop_eq_some_iff {room i : ℕ} {l : List UInt8} :
    encodeVarintLoop room i = some l ↔ l = varintGroups i ∧ l.length ≤ room := by
  induction room generalizing i l with
  | zero =>
    rw [encodeVarintLoop, varintGroups]
    split_ifs <;> simp <;> rintro rfl <;> simp
  | succ room ih =>
    rw [encodeVarintLoop, varintGroups]
    split_ifs with hi
    · rw [Option.map_eq_some_iff]
      constructor
      · rintro ⟨m, hm, rfl⟩
        obtain ⟨rfl, hlen⟩ := ih.mp hm
        exact ⟨rfl, by simpa using hlen⟩
      · rintro ⟨rfl, hlen⟩
        exact ⟨_, ih.mpr ⟨rfl, by simpa using hlen⟩, rfl⟩
    · rw [Option.some.injEq]
      constructor
      · rintro rfl
        exact ⟨rfl, by simp⟩
      · rintro ⟨rfl, -⟩
        rfl

/-- **The encoder writes the form of the number, if it has the room.** -/
theorem encodeVarint_eq_some_iff {room i : ℕ} {l : List UInt8} :
    encodeVarint room i = some l ↔ l = varint i ∧ l.length ≤ room := by
  rcases room with - | room
  · rw [encodeVarint, varint]
    split_ifs <;> simp <;> rintro rfl <;> simp
  · rw [encodeVarint, varint]
    split_ifs with hi
    · rw [Option.some.injEq]
      constructor
      · rintro rfl
        exact ⟨rfl, by simp⟩
      · rintro ⟨rfl, -⟩
        rfl
    · rw [Option.map_eq_some_iff]
      constructor
      · rintro ⟨m, hm, rfl⟩
        obtain ⟨rfl, hlen⟩ := encodeVarintLoop_eq_some_iff.mp hm
        exact ⟨rfl, by simpa using hlen⟩
      · rintro ⟨rfl, hlen⟩
        exact ⟨_, encodeVarintLoop_eq_some_iff.mpr ⟨rfl, by simpa using hlen⟩, rfl⟩

theorem varint_ne_nil (i : ℕ) : varint i ≠ [] := by
  rw [varint]
  split_ifs <;> simp

/-! ### Reading back -/

theorem toNat_ofNat_or {i m : ℕ} (h : ∀ k < 256, k ||| m = k % (256 - m) + m) (hm : m < 256)
    (hdvd : (256 - m) ∣ 2 ^ 8) : (UInt8.ofNat (i ||| m)).toNat = i % (256 - m) + m := by
  have hmod : (i ||| m) % 2 ^ 8 = i % 2 ^ 8 ||| m % 2 ^ 8 := Nat.or_mod_two_pow
  show (i ||| m) % 2 ^ 8 = _
  rw [hmod, Nat.mod_eq_of_lt (a := m) (by omega), h _ (by omega), Nat.mod_mod_of_dvd _ hdvd]

theorem toNat_group (i : ℕ) : (UInt8.ofNat (i ||| 128)).toNat = i % 128 + 128 :=
  toNat_ofNat_or (by decide +kernel) (by omega) ⟨2, rfl⟩

theorem toNat_firstByte (i : ℕ) : (UInt8.ofNat (i ||| 240)).toNat = i % 16 + 240 :=
  toNat_ofNat_or (by decide +kernel) (by omega) ⟨16, rfl⟩

theorem toNat_shiftLeft_byte {b : UInt8} {r : ℕ} (h : b.toNat * 2 ^ r < 2 ^ 64) :
    (b.toUInt64 <<< UInt64.ofNat r).toNat = b.toNat * 2 ^ r := by
  rw [UInt64.toNat_shiftLeft, UInt8.toNat_toUInt64]
  rcases Nat.eq_zero_or_pos b.toNat with hb | hb
  · simp [hb]
  · have hr : r < 64 := by
      by_contra hr
      have hpow : 2 ^ 64 ≤ 2 ^ r := Nat.pow_le_pow_right (by omega) (by omega)
      have hle : 2 ^ r ≤ b.toNat * 2 ^ r := Nat.le_mul_of_pos_left _ hb
      omega
    have hr64 : (UInt64.ofNat r).toNat = r := UInt64.toNat_ofNat_of_lt' (hr.trans (by decide))
    rw [hr64, Nat.mod_eq_of_lt hr, Nat.shiftLeft_eq, Nat.mod_eq_of_lt h]

theorem decodeVarintLoop_groups {q r : ℕ} {i : UInt64} (data : List UInt8)
    (h : i.toNat + q * 2 ^ r < 2 ^ 64) :
    decodeVarintLoop i r (varintGroups q ++ data)
      = some (UInt64.ofNat (i.toNat + q * 2 ^ r), data) := by
  induction q using Nat.strong_induction_on generalizing i r with
  | _ q ih =>
    rw [varintGroups]
    split_ifs with hq
    · -- one group, and the rest of the number seven bits higher
      have hb := toNat_group q
      have hshift : (q - 128) >>> 7 = (q - 128) / 128 := Nat.shiftRight_eq_div_pow _ _
      have hsplit : q * 2 ^ r = (q % 128 + 128) * 2 ^ r + (q - 128) / 128 * 2 ^ (r + 7) := by
        have hdiv : q = q % 128 + 128 + (q - 128) / 128 * 128 := by omega
        calc q * 2 ^ r = (q % 128 + 128 + (q - 128) / 128 * 128) * 2 ^ r := by rw [← hdiv]
          _ = _ := by ring
      have hbyte := toNat_shiftLeft_byte (b := UInt8.ofNat (q ||| 128)) (r := r)
        (by rw [hb]; omega)
      have hsum : (i + (UInt8.ofNat (q ||| 128)).toUInt64 <<< UInt64.ofNat r).toNat
          = i.toNat + (q % 128 + 128) * 2 ^ r := by
        rw [UInt64.toNat_add, hbyte, hb]
        omega
      rw [List.cons_append, decodeVarintLoop]
      rw [if_pos (by rw [UInt8.le_iff_toNat_le, hb]; simp),
        ih _ (by omega) (by rw [hsum, hshift]; omega), hsum, hshift, hsplit, Nat.add_assoc]
    · have hb : (UInt8.ofNat q).toNat = q := by
        show q % 256 = q
        omega
      have hbyte := toNat_shiftLeft_byte (b := UInt8.ofNat q) (r := r) (by rw [hb]; omega)
      rw [List.singleton_append, decodeVarintLoop]
      rw [if_neg (by rw [UInt8.le_iff_toNat_le, hb]; simpa using hq)]
      refine congrArg (fun v => some (v, data)) ?_
      apply UInt64.toNat_inj.mp
      rw [UInt64.toNat_add, hbyte, hb, UInt64.toNat_ofNat']

/-- **A number is read back, and what follows it is left.** -/
theorem decodeVarint_varint {i : ℕ} (h : i < 2 ^ 64) (data : List UInt8) :
    decodeVarint (varint i ++ data) = some (UInt64.ofNat i, data) := by
  rw [varint]
  split_ifs with hi
  · have hb : (UInt8.ofNat i).toNat = i := by
      show i % 256 = i
      omega
    rw [List.singleton_append, decodeVarint,
      if_pos (by rw [UInt8.lt_iff_toNat_lt, hb]; simpa using hi)]
    refine congrArg (fun v => some (v, data)) ?_
    apply UInt64.toNat_inj.mp
    rw [UInt8.toNat_toUInt64, hb, UInt64.toNat_ofNat_of_lt' h]
  · have hb := toNat_firstByte i
    have hshift : (i - 240) >>> 4 = (i - 240) / 16 := Nat.shiftRight_eq_div_pow _ _
    have hsum : (UInt8.ofNat (i ||| 240)).toUInt64.toNat + (i - 240) >>> 4 * 2 ^ 4 = i := by
      rw [UInt8.toNat_toUInt64, hb, hshift]
      omega
    rw [List.cons_append, decodeVarint, if_neg (by rw [UInt8.lt_iff_toNat_lt, hb]; simp),
      decodeVarintLoop_groups data (by rw [hsum]; exact h), hsum]

/-! ### What is left -/

theorem decodeVarintLoop_suffix {i v : UInt64} {r : ℕ} {data rest : List UInt8}
    (h : decodeVarintLoop i r data = some (v, rest)) :
    rest <:+ data ∧ rest.length < data.length := by
  induction data generalizing i r with
  | nil => simp [decodeVarintLoop] at h
  | cons b data ih =>
    rw [decodeVarintLoop] at h
    split_ifs at h
    · obtain ⟨hsuffix, hlen⟩ := ih h
      exact ⟨hsuffix.trans (List.suffix_cons b data), by simp only [List.length_cons]; omega⟩
    · obtain ⟨-, rfl⟩ : _ ∧ data = rest := by simpa using h
      exact ⟨List.suffix_cons b data, by simp⟩

theorem decodeVarint_suffix {v : UInt64} {data rest : List UInt8}
    (h : decodeVarint data = some (v, rest)) : rest <:+ data ∧ rest.length < data.length := by
  rcases data with - | ⟨b, data⟩
  · simp [decodeVarint] at h
  · rw [decodeVarint] at h
    split_ifs at h
    · obtain ⟨-, rfl⟩ : _ ∧ data = rest := by simpa using h
      exact ⟨List.suffix_cons b data, by simp⟩
    · obtain ⟨hsuffix, hlen⟩ := decodeVarintLoop_suffix h
      exact ⟨hsuffix.trans (List.suffix_cons b data), by simp only [List.length_cons]; omega⟩

end SmartHAProxy
