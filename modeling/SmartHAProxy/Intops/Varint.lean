/-
The varints of the peers protocol and of SPOE, with their pointers (haproxy/intops.h).

Both functions move a pointer `p` through memory and compare it with `end` before
each access.  The model keeps the offsets that are accessed, in order.  A loop is
structural on the bytes that are left before `end`, which is 0 when `p >= end`.

`encodeVarintAt_eq` and `decodeVarintAt_eq` tell what they do in terms of the forms
of numbers; the round trip and the uniqueness of the forms follow from there.
-/
import SmartHAProxy.Lib.Cells
import SmartHAProxy.Lib.VarintForm

namespace SmartHAProxy

/-- `__varint_bytes`. -/
def varintBytesOf (v : UInt64) : ℕ :=
  if v ≤ 0x00000000000000ef then 1
  else if v ≤ 0x00000000000008ef then 2
  else if v ≤ 0x00000000000408ef then 3
  else if v ≤ 0x00000000020408ef then 4
  else if v ≤ 0x00000001020408ef then 5
  else if v ≤ 0x00000081020408ef then 6
  else if v ≤ 0x00004081020408ef then 7
  else if v ≤ 0x00204081020408ef then 8
  else if v ≤ 0x10204081020408ef then 9
  else 10

/-! ### Encoding -/

/-- The memory, the pointer `p` and the offsets written so far. -/
structure VarintOut where
  mem : ℕ → UInt8
  p : ℕ
  written : List ℕ

/-- `*p++ = b`. -/
def VarintOut.put (s : VarintOut) (b : UInt8) : VarintOut :=
  { mem := writeAt s.mem s.p [b], p := s.p + 1, written := s.written ++ [s.p] }

/-- The loop of `encode_varint` and what follows it, with `left` bytes before `end`; `false` for
the return value -1. -/
def encodeLoopAt (s : VarintOut) : ℕ → UInt64 → VarintOut × Bool
  | 0, _ => (s, false)
  | left + 1, i =>
    if i ≥ 128 then encodeLoopAt (s.put (i.toUInt8 ||| 128)) left ((i - 128) >>> 7)
    else (s.put i.toUInt8, true)

/-- `encode_varint` at the pointer `s.p`; `false` for the return value -1, else the number of bytes
is how far `p` has moved. -/
def encodeVarintAt (i : UInt64) (s : VarintOut) (fin : ℕ) : VarintOut × Bool :=
  match fin - s.p with
  | 0 => (s, false)
  | left + 1 =>
    if i < 240 then (s.put i.toUInt8, true)
    else encodeLoopAt (s.put (i.toUInt8 ||| 240)) left ((i - 240) >>> 4)

/-! ### Decoding -/

/-- The loop of `decode_varint`, with `left` bytes before `end`: the offsets that are read, and
the value and the pointer behind the number. -/
def decodeLoopAt (mem : ℕ → UInt8) : (i : UInt64) → (r p left : ℕ) → List ℕ × Option (UInt64 × ℕ)
  | _, _, _, 0 => ([], none)
  | i, r, p, left + 1 =>
    let i' := i + (mem p).toUInt64 <<< UInt64.ofNat r
    if mem p ≥ 128 then
      let out := decodeLoopAt mem i' (r + 7) (p + 1) left
      (p :: out.1, out.2)
    else ([p], some (i', p + 1))

/-- `decode_varint` from `p` on: the offsets that are read, and the value and the pointer behind
the number; `none` for the return value -1. -/
def decodeVarintAt (mem : ℕ → UInt8) (p fin : ℕ) : List ℕ × Option (UInt64 × ℕ) :=
  match fin - p with
  | 0 => ([], none)
  | left + 1 =>
    if mem p < 240 then ([p], some ((mem p).toUInt64, p + 1))
    else
      let out := decodeLoopAt mem (mem p).toUInt64 4 (p + 1) left
      (p :: out.1, out.2)

/-! ### What is written -/

def VarintOut.puts (s : VarintOut) (bs : List UInt8) : VarintOut :=
  { mem := writeAt s.mem s.p bs, p := s.p + bs.length,
    written := s.written ++ List.range' s.p bs.length }

theorem VarintOut.puts_cons (s : VarintOut) (b : UInt8) (bs : List UInt8) :
    (s.put b).puts bs = s.puts (b :: bs) := by
  have hmem : writeAt (writeAt s.mem s.p [b]) (s.p + 1) bs = writeAt s.mem s.p (b :: bs) :=
    writeAt_append s.mem s.p [b] bs
  simp only [VarintOut.puts, VarintOut.put, hmem, List.length_cons, List.range'_succ,
    List.append_assoc, List.singleton_append, Nat.add_assoc, Nat.add_comm 1]

theorem VarintOut.puts_nil (s : VarintOut) : s.puts [] = s := by
  simp [VarintOut.puts]

theorem VarintOut.puts_singleton (s : VarintOut) (b : UInt8) : s.puts [b] = s.put b := rfl

theorem toUInt8_or (i : UInt64) (m : UInt8) :
    i.toUInt8 ||| m = UInt8.ofNat (i.toNat ||| m.toNat) := by
  apply UInt8.toNat_inj.mp
  have hm : m.toNat % 2 ^ 8 = m.toNat := Nat.mod_eq_of_lt m.toNat_lt
  have hmod : (i.toNat ||| m.toNat) % 2 ^ 8 = i.toNat % 2 ^ 8 ||| m.toNat % 2 ^ 8 :=
    Nat.or_mod_two_pow
  rw [UInt8.toNat_or, UInt64.toNat_toUInt8]
  show _ = (i.toNat ||| m.toNat) % 2 ^ 8
  rw [hmod, hm]

theorem encodeLoopAt_eq (s : VarintOut) (left : ℕ) (i : UInt64) :
    encodeLoopAt s left i = (s.puts ((varintGroups i.toNat).take left),
      decide ((varintGroups i.toNat).length ≤ left)) := by
  induction left generalizing s i with
  | zero =>
    have hne : varintGroups i.toNat ≠ [] := by
      rw [varintGroups]
      split_ifs <;> simp
    simp [encodeLoopAt, VarintOut.puts_nil, hne]
  | succ left ih =>
    rw [encodeLoopAt, varintGroups]
    by_cases hi : 128 ≤ i.toNat
    · have hi' : i ≥ 128 := UInt64.le_iff_toNat_le.mpr hi
      have hrest : ((i - 128) >>> 7).toNat = (i.toNat - 128) >>> 7 := by
        rw [UInt64.toNat_shiftRight, UInt64.toNat_sub_of_le _ _ hi']
        rfl
      rw [if_pos hi', if_pos hi, ih, VarintOut.puts_cons, hrest, toUInt8_or, List.take_succ_cons,
        List.length_cons]
      simp only [Nat.succ_le_succ_iff]
      rfl
    · have hi' : ¬ i ≥ 128 := mt UInt64.le_iff_toNat_le.mp hi
      rw [if_neg hi', if_neg hi, ← VarintOut.puts_singleton]
      simp

/-- **What `encodeVarintAt` writes**: as much of the form of the number as there is room for. -/
theorem encodeVarintAt_eq (i : UInt64) (s : VarintOut) (fin : ℕ) :
    encodeVarintAt i s fin = (s.puts ((varint i.toNat).take (fin - s.p)),
      decide ((varint i.toNat).length ≤ fin - s.p)) := by
  rw [encodeVarintAt]
  rcases hleft : fin - s.p with - | left
  · simp [VarintOut.puts_nil, varint_ne_nil]
  · dsimp only
    rw [varint]
    by_cases hi : i.toNat < 240
    · have hi' : i < 240 := UInt64.lt_iff_toNat_lt.mpr hi
      rw [if_pos hi', if_pos hi, ← VarintOut.puts_singleton]
      simp
    · have hi' : ¬ i < 240 := mt UInt64.lt_iff_toNat_lt.mp hi
      have hrest : ((i - 240) >>> 4).toNat = (i.toNat - 240) >>> 4 := by
        rw [UInt64.toNat_shiftRight, UInt64.toNat_sub_of_le _ _ (UInt64.not_lt.mp hi')]
        rfl
      rw [if_neg hi', if_neg hi, encodeLoopAt_eq, VarintOut.puts_cons, hrest, toUInt8_or,
        List.take_succ_cons, List.length_cons]
      simp only [Nat.succ_le_succ_iff]
      rfl

theorem varintBytesOf_eq (v : UInt64) : varintBytesOf v = (varint v.toNat).length := by
  have hlt := v.toNat_lt
  unfold varintBytesOf
  simp only [UInt64.le_iff_toNat_le, UInt64.reduceToNat]
  split_ifs
  · rw [varint, if_pos (by omega), List.length_singleton]
  · exact (varint_length_eq (n := 0) (by simp only [groupsBound]; omega)
      (by simp only [groupsBound]; omega)).symm
  · exact (varint_length_eq (n := 1) (by simp only [groupsBound]; omega)
      (by simp only [groupsBound]; omega)).symm
  · exact (varint_length_eq (n := 2) (by simp only [groupsBound]; omega)
      (by simp only [groupsBound]; omega)).symm
  · exact (varint_length_eq (n := 3) (by simp only [groupsBound]; omega)
      (by simp only [groupsBound]; omega)).symm
  · exact (varint_length_eq (n := 4) (by simp only [groupsBound]; omega)
      (by simp only [groupsBound]; omega)).symm
  · exact (varint_length_eq (n := 5) (by simp only [groupsBound]; omega)
      (by simp only [groupsBound]; omega)).symm
  · exact (varint_length_eq (n := 6) (by simp only [groupsBound]; omega)
      (by simp only [groupsBound]; omega)).symm
  · exact (varint_length_eq (n := 7) (by simp only [groupsBound]; omega)
      (by simp only [groupsBound]; omega)).symm
  · exact (varint_length_eq (n := 8) (by simp only [groupsBound]; omega)
      (by simp only [groupsBound]; omega)).symm

/-! ### What is read -/

theorem decodeLoopAt_eq (mem : ℕ → UInt8) (i : UInt64) (r p left : ℕ) :
    (decodeLoopAt mem i r p left).2
        = (decodeVarintLoop i r (readAt mem p left)).map (fun o => (o.1, p + left - o.2.length)) ∧
      ∀ a ∈ (decodeLoopAt mem i r p left).1, p ≤ a ∧ a < p + left := by
  induction left generalizing i r p with
  | zero => simp [decodeLoopAt, decodeVarintLoop]
  | succ left ih =>
    have hread : readAt mem p (left + 1) = mem p :: readAt mem (p + 1) left := by
      rw [Nat.add_comm left, readAt_add]
      rfl
    rw [decodeLoopAt, hread, decodeVarintLoop]
    dsimp only
    obtain ⟨hres, hreads⟩ := ih (i + (mem p).toUInt64 <<< UInt64.ofNat r) (r + 7) (p + 1)
    by_cases hb : 128 ≤ mem p
    · rw [if_pos hb, if_pos hb]
      refine ⟨by rw [hres, Nat.add_right_comm, Nat.add_assoc], fun a ha => ?_⟩
      rcases List.mem_cons.mp ha with rfl | ha
      · omega
      · have := hreads a ha
        omega
    · rw [if_neg hb, if_neg hb]
      refine ⟨?_, fun a ha => ?_⟩
      · rw [Option.map_some, length_readAt, show p + (left + 1) - left = p + 1 by omega]
      · obtain rfl := List.mem_singleton.mp ha
        omega

/-- **What `decodeVarintAt` reads**: the number at the start of the bytes before the end pointer,
and no byte that is not one of them. -/
theorem decodeVarintAt_eq (mem : ℕ → UInt8) (p fin : ℕ) :
    (decodeVarintAt mem p fin).2
        = (decodeVarint (readAt mem p (fin - p))).map (fun o => (o.1, fin - o.2.length)) ∧
      ∀ a ∈ (decodeVarintAt mem p fin).1, p ≤ a ∧ a < fin := by
  rw [decodeVarintAt]
  rcases hleft : fin - p with - | left
  · simp [decodeVarint]
  · have hread : readAt mem p (left + 1) = mem p :: readAt mem (p + 1) left := by
      rw [Nat.add_comm left, readAt_add]
      rfl
    rw [hread, decodeVarint]
    dsimp only
    obtain ⟨hres, hreads⟩ := decodeLoopAt_eq mem (mem p).toUInt64 4 (p + 1) left
    by_cases hb : mem p < 240
    · rw [if_pos hb, if_pos hb]
      refine ⟨?_, fun a ha => ?_⟩
      · rw [Option.map_some, length_readAt, show fin - left = p + 1 by omega]
      · obtain rfl := List.mem_singleton.mp ha
        omega
    · rw [if_neg hb, if_neg hb]
      refine ⟨by rw [hres, show p + 1 + left = fin by omega], fun a ha => ?_⟩
      rcases List.mem_cons.mp ha with rfl | ha
      · omega
      · have := hreads a ha
        omega

/-! ### Round trip and uniqueness -/

/-- What `encode_varint` promises of a call for `v` at `p`, with the end pointer `fin`: it succeeds
if and only if the bytes fit, and then these are the bytes that are written; they are read back
wherever they are copied to. -/
structure VarintWritten (v : UInt64) (mem : ℕ → UInt8) (p fin : ℕ) (out : VarintOut × Bool) :
    Prop where
  fits : out.2 = true ↔ p + varintBytesOf v ≤ fin
  inside : ∀ a ∈ out.1.written, p ≤ a ∧ a < fin
  kept : ∀ a, a ∉ out.1.written → out.1.mem a = mem a
  moved : out.2 = true → out.1.p = p + varintBytesOf v
  written : out.2 = true → out.1.written = List.range' p (varintBytesOf v)
  readBack : out.2 = true → ∀ mem' p' fin',
    readAt mem' p' (varintBytesOf v) = readAt out.1.mem p (varintBytesOf v) →
    p' + varintBytesOf v ≤ fin' →
    (decodeVarintAt mem' p' fin').2 = some (v, p' + varintBytesOf v)

theorem decodeVarintAt_form {v : UInt64} {mem : ℕ → UInt8} {p fin : ℕ}
    (hmem : readAt mem p (varintBytesOf v) = varint v.toNat) (hfin : p + varintBytesOf v ≤ fin) :
    (decodeVarintAt mem p fin).2 = some (v, p + varintBytesOf v) := by
  obtain ⟨rest, hrest⟩ := Nat.exists_eq_add_of_le hfin
  have hread : readAt mem p (fin - p)
      = varint v.toNat ++ readAt mem (p + varintBytesOf v) rest := by
    rw [← hmem, ← readAt_add]
    congr 1
    omega
  rw [(decodeVarintAt_eq mem p fin).1, hread, decodeVarint_varint v.toNat_lt, Option.map_some,
    length_readAt, UInt64.ofNat_toNat]
  exact congrArg some (congrArg (Prod.mk v) (by omega))

theorem varintWritten_encodeVarintAt (v : UInt64) (mem : ℕ → UInt8) (p fin : ℕ) :
    VarintWritten v mem p fin (encodeVarintAt v ⟨mem, p, []⟩ fin) := by
  have hpos : 0 < (varint v.toNat).length := List.length_pos_iff.mpr (varint_ne_nil _)
  have hlen := varintBytesOf_eq v
  rw [encodeVarintAt_eq]
  show VarintWritten v mem p fin (VarintOut.puts ⟨mem, p, []⟩ ((varint v.toNat).take (fin - p)),
    decide ((varint v.toNat).length ≤ fin - p))
  have hwritten : (VarintOut.puts ⟨mem, p, []⟩ ((varint v.toNat).take (fin - p))).written
      = List.range' p (min (fin - p) (varint v.toNat).length) := by
    simp [VarintOut.puts]
  -- all of the form is written when it fits
  have hall : decide ((varint v.toNat).length ≤ fin - p) = true →
      (varint v.toNat).take (fin - p) = varint v.toNat := fun h =>
    List.take_of_length_le (decide_eq_true_iff.mp h)
  refine ⟨?_, fun a ha => ?_, fun a ha => ?_, fun h => ?_, fun h => ?_,
    fun h mem' p' fin' hmem hfin => ?_⟩
  · rw [decide_eq_true_iff]
    omega
  · rw [hwritten, List.mem_range'_1] at ha
    omega
  · rw [hwritten, List.mem_range'_1] at ha
    refine writeAt_outside _ (?_ : a < p ∨ p + _ ≤ a)
    rw [List.length_take]
    omega
  · show p + ((varint v.toNat).take (fin - p)).length = _
    rw [hall h, hlen]
  · rw [hwritten, Nat.min_eq_right (decide_eq_true_iff.mp h), hlen]
  · refine decodeVarintAt_form (hmem.trans ?_) hfin
    show readAt (writeAt mem p ((varint v.toNat).take (fin - p))) p _ = _
    rw [hall h, hlen, readAt_writeAt]

theorem decodeVarintAt_unique {v : UInt64} {mem : ℕ → UInt8} {p fin q : ℕ}
    (h : (decodeVarintAt mem p fin).2 = some (v, q))
    (hval : varintValue (readAt mem p (q - p)) < 2 ^ 64) :
    readAt mem p (q - p) = varint v.toNat := by
  rw [(decodeVarintAt_eq mem p fin).1, Option.map_eq_some_iff] at h
  obtain ⟨⟨w, rest⟩, hdec, hpair⟩ := h
  obtain ⟨rfl, rfl⟩ : w = v ∧ fin - rest.length = q := by simpa using hpair
  obtain ⟨x, hdata, hx⟩ := decodeVarint_form hdec
  have hlen : (varint x).length + rest.length = fin - p := by
    rw [← List.length_append, ← hdata, length_readAt]
  have htaken : readAt mem p (fin - rest.length - p) = varint x := by
    rw [show fin - rest.length - p = (varint x).length by omega,
      ← take_readAt mem p (show (varint x).length ≤ fin - p by omega), hdata, List.take_left']
    rfl
  rw [htaken, hx] at hval
  rw [hdata, decodeVarint_varint hval] at hdec
  have hv : UInt64.ofNat x = w := by simpa using hdec
  rw [htaken, ← hv, UInt64.toNat_ofNat_of_lt' hval]

/-- **Varints of the peers protocol and of SPOE**: the encoder writes as many bytes as
`__varint_bytes` tells if and only if they fit, and they are read back; the decoder takes one string
of bytes at most for a number, among those whose value is below 2^64, and reads no byte at or
behind its end pointer. -/
theorem varint_exact :
    (∀ v mem p fin, VarintWritten v mem p fin (encodeVarintAt v ⟨mem, p, []⟩ fin)) ∧
    (∀ (v : UInt64) (mem mem' : ℕ → UInt8) (p p' fin fin' q q' : ℕ),
      (decodeVarintAt mem p fin).2 = some (v, q) →
      (decodeVarintAt mem' p' fin').2 = some (v, q') →
      varintValue (readAt mem p (q - p)) < 2 ^ 64 →
      varintValue (readAt mem' p' (q' - p')) < 2 ^ 64 →
      readAt mem p (q - p) = readAt mem' p' (q' - p')) ∧
    (∀ (mem : ℕ → UInt8) (p fin : ℕ), ∀ a ∈ (decodeVarintAt mem p fin).1, p ≤ a ∧ a < fin) :=
  ⟨varintWritten_encodeVarintAt,
    fun _ _ _ _ _ _ _ _ _ h h' hval hval' =>
      (decodeVarintAt_unique h hval).trans (decodeVarintAt_unique h' hval').symm,
    fun mem p fin => (decodeVarintAt_eq mem p fin).2⟩

end SmartHAProxy
