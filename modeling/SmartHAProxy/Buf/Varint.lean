/-
Varints in ring buffers (haproxy/buf.h).

`b_put_varint`, `b_get_varint` and `b_peek_varint` move a pointer through the area
and wrap it with `if (p++ == wrap) p -= size`, which compares the pointer before it
is incremented: the pointer stands on the end of the area for one access, and only
then goes back.  The memory is a function here that goes on behind the area, and the
offsets that are accessed are kept.

As long as the bytes that a call accesses end at the end of the area or before it,
the three functions do what they are for; otherwise the byte at the offset `size` is
accessed.

Main results: `putExact_iff`, `peekExact_iff` and `getExact_iff`, together
`varint_ring_iff`.
-/
import SmartHAProxy.Buf.Content
import SmartHAProxy.Intops.Varint

namespace SmartHAProxy

variable {size p n k ofs : ℕ}

/-! ### Buffers in memory -/

/-- `struct buffer` with the memory from its area on. -/
structure RawBuf where
  mem : ℕ → UInt8
  size : ℕ
  head : ℕ
  data : ℕ

/-- The buffer with the bytes of its area. -/
def RawBuf.toBuffer (b : RawBuf) : Buffer := ⟨readAt b.mem 0 b.size, b.head, b.data⟩

/-- The bytes of the buffer in their order. -/
def RawBuf.content (b : RawBuf) : List UInt8 := b.toBuffer.content

/-- `b_peek_ofs`. -/
def RawBuf.peekOfs (b : RawBuf) (ofs : ℕ) : ℕ :=
  if b.head + ofs ≥ b.size then b.head + ofs - b.size else b.head + ofs

/-- `b_del`. -/
def RawBuf.del (b : RawBuf) (del : ℕ) : RawBuf :=
  { b with
    data := b.data - del
    head := if b.head + del ≥ b.size then b.head + del - b.size else b.head + del }

/-- `if (p++ == wrap) p -= size`. -/
def wrapNext (size p : ℕ) : ℕ := if p = size then p + 1 - size else p + 1

/-! ### Writing -/

/-- The memory, the pointer `tail`, the variable `data` and the offsets written so far. -/
structure VarintPut where
  mem : ℕ → UInt8
  tail : ℕ
  data : ℕ
  written : List ℕ

/-- `*tail = c`. -/
def VarintPut.poke (s : VarintPut) (c : UInt8) : VarintPut :=
  { s with mem := writeAt s.mem s.tail [c], written := s.written ++ [s.tail] }

/-- The tail is moved and `data` incremented. -/
def VarintPut.step (size : ℕ) (s : VarintPut) : VarintPut :=
  { s with tail := wrapNext size s.tail, data := s.data + 1 }

/-- The loop of `b_put_varint` and what follows it, with `left` bytes of room once `data` is
incremented; `false` for the return value 0. -/
def putVarintLoop (size : ℕ) : ℕ → VarintPut → UInt64 → VarintPut × Bool
  | 0, s, _ => (s.step size, false)
  | left + 1, s, v =>
    let s' := s.step size
    if v < 0x80 then ({ s'.poke v.toUInt8 with data := s'.data + 1 }, true)
    else putVarintLoop size left (s'.poke (v.toUInt8 ||| 0x80)) ((v - 0x80) >>> 7)

/-- The writes of `b_put_varint`. -/
def RawBuf.putVarintAt (b : RawBuf) (v : UInt64) : VarintPut × Bool :=
  let s : VarintPut := ⟨b.mem, b.peekOfs b.data, b.data, []⟩
  match b.size - b.data with
  | 0 => (s, false)
  | left + 1 =>
    if v ≥ 0xF0 then
      putVarintLoop b.size left (s.poke (v.toUInt8 ||| 0xF0)) ((v - 0xF0) >>> 4)
    else ({ s.poke v.toUInt8 with data := s.data + 1 }, true)

/-- `b_put_varint`: the buffer and the return value. -/
def RawBuf.bPutVarint (b : RawBuf) (v : UInt64) : RawBuf × ℕ :=
  let out := b.putVarintAt v
  if out.2 then ({ b with mem := out.1.mem, data := out.1.data }, out.1.data - b.data)
  else ({ b with mem := out.1.mem }, 0)

/-! ### Reading -/

/-- The loop of `b_get_varint` and `b_peek_varint` and what follows it, with the pointer on a byte
that was read and `data` bytes from it on: the offsets that are read, and the value with the
number of bytes left; `none` for the return value 0. -/
def getVarintLoop (mem : ℕ → UInt8) (size : ℕ) :
    (v : UInt64) → (bits head data : ℕ) → List ℕ × Option (UInt64 × ℕ)
  | _, _, _, 0 => ([], none)
  | _, _, _, 1 => ([], none)
  | v, bits, head, data + 2 =>
    let head' := wrapNext size head
    let v' := v + (mem head').toUInt64 <<< UInt64.ofNat bits
    if mem head' &&& 0x80 = 0 then ([head'], some (v', data))
    else
      let out := getVarintLoop mem size v' (bits + 7) head' (data + 1)
      (head' :: out.1, out.2)

/-- What the two functions have in common, from the pointer `head` with `data` bytes. -/
def getVarintAt (mem : ℕ → UInt8) (size head data : ℕ) : List ℕ × Option (UInt64 × ℕ) :=
  match data with
  | 0 => ([], none)
  | left + 1 =>
    if mem head ≥ 0xF0 then
      let out := getVarintLoop mem size (mem head).toUInt64 4 head (left + 1)
      (head :: out.1, out.2)
    else ([head], some ((mem head).toUInt64, left))

/-- `b_peek_varint`: the offsets read, and the value and the number of bytes parsed; `none` for
the return value 0. -/
def RawBuf.bPeekVarint (b : RawBuf) (ofs : ℕ) : List ℕ × Option (UInt64 × ℕ) :=
  let out := getVarintAt b.mem b.size (b.peekOfs ofs) (b.data - ofs)
  (out.1, out.2.map fun r => (r.1, b.data - ofs - r.2))

/-- `b_get_varint`: the buffer, the offsets read, and the value and the number of bytes; `none`
for the return value 0. -/
def RawBuf.bGetVarint (b : RawBuf) : RawBuf × List ℕ × Option (UInt64 × ℕ) :=
  let out := getVarintAt b.mem b.size b.head b.data
  match out.2 with
  | none => (b, out.1, none)
  | some (v, data) => (b.del (b.data - data), out.1, some (v, b.data - data))

/-! ### The pointer -/

/-- Where the pointer stands for `n` accesses from `p` on. -/
def ptrs (size : ℕ) : ℕ → ℕ → List ℕ
  | _, 0 => []
  | p, n + 1 => p :: ptrs size (wrapNext size p) n

@[simp] theorem length_ptrs (size p n : ℕ) : (ptrs size p n).length = n := by
  induction n generalizing p with
  | zero => rfl
  | succ n ih => rw [ptrs, List.length_cons, ih]

theorem ptrs_add (k : ℕ) (h : p + n ≤ size) :
    ptrs size p (n + k) = List.range' p n ++ ptrs size (p + n) k := by
  induction n generalizing p with
  | zero => simp
  | succ n ih =>
    have hnext : wrapNext size p = p + 1 := if_neg (by omega)
    rw [Nat.add_right_comm, ptrs, hnext, ih (by omega), List.range'_succ, List.cons_append,
      Nat.add_right_comm p 1 n, Nat.add_assoc p n 1]

theorem ptrs_eq_range' (h : p + n ≤ size) : ptrs size p n = List.range' p n := by
  have := ptrs_add 0 h
  simpa [ptrs] using this

theorem size_mem_take_ptrs (hp : p ≤ size) (hk : size < p + k) (hkn : k ≤ n) :
    size ∈ (ptrs size p n).take k := by
  obtain ⟨d, rfl⟩ := Nat.exists_eq_add_of_le hp
  obtain ⟨m, rfl⟩ : ∃ m, n = d + (m + 1) := ⟨n - d - 1, by omega⟩
  rw [ptrs_add _ (by omega), List.take_append, List.length_range', ptrs]
  obtain ⟨j, hj⟩ : ∃ j, k - d = j + 1 := ⟨k - d - 1, by omega⟩
  rw [hj, List.take_succ_cons]
  exact List.mem_append_right _ List.mem_cons_self

/-! ### What is written -/

/-- The memory after the bytes are written at the pointer. -/
def pokes (size : ℕ) : (ℕ → UInt8) → ℕ → List UInt8 → ℕ → UInt8
  | mem, _, [] => mem
  | mem, p, c :: cs => pokes size (writeAt mem p [c]) (wrapNext size p) cs

theorem pokes_eq_writeAt {mem : ℕ → UInt8} {cs : List UInt8} (h : p + cs.length ≤ size) :
    pokes size mem p cs = writeAt mem p cs := by
  induction cs generalizing mem p with
  | nil => exact (writeAt_nil mem p).symm
  | cons c cs ih =>
    rw [List.length_cons] at h
    have hnext : wrapNext size p = p + 1 := if_neg (by omega)
    rw [pokes, hnext, ih (by omega)]
    exact writeAt_append mem p [c] cs

/-- What the loop writes, from the pointer behind the one of `s`: as much of the groups as there
is room for. -/
theorem putVarintLoop_eq (size left : ℕ) (s : VarintPut) (v : UInt64) :
    (putVarintLoop size left s v).1.mem
        = pokes size s.mem (wrapNext size s.tail) ((varintGroups v.toNat).take left) ∧
      (putVarintLoop size left s v).1.written = s.written
        ++ ptrs size (wrapNext size s.tail) (min left (varintGroups v.toNat).length) ∧
      (putVarintLoop size left s v).2 = decide ((varintGroups v.toNat).length ≤ left) ∧
      ((varintGroups v.toNat).length ≤ left →
        (putVarintLoop size left s v).1.data = s.data + 1 + (varintGroups v.toNat).length) := by
  induction left generalizing s v with
  | zero =>
    have hne : varintGroups v.toNat ≠ [] := by
      rw [varintGroups]
      split_ifs <;> simp
    simp [putVarintLoop, VarintPut.step, pokes, ptrs, hne]
  | succ left ih =>
    rw [putVarintLoop, varintGroups]
    dsimp only
    by_cases hv : 128 ≤ v.toNat
    · have hv' : ¬ v < 0x80 := UInt64.not_lt.mpr (UInt64.le_iff_toNat_le.mpr hv)
      have hrest : ((v - 0x80) >>> 7).toNat = (v.toNat - 128) >>> 7 := by
        rw [UInt64.toNat_shiftRight, UInt64.toNat_sub_of_le _ _ (UInt64.not_lt.mp hv')]
        rfl
      obtain ⟨hmem, hwritten, hflag, hdata⟩ :=
        ih ((s.step size).poke (v.toUInt8 ||| 0x80)) ((v - 0x80) >>> 7)
      rw [hrest] at hmem hwritten hflag hdata
      rw [if_neg hv', if_pos hv, hmem, hwritten, hflag, List.length_cons, List.take_succ_cons,
        toUInt8_or]
      refine ⟨rfl, ?_, by simp only [Nat.succ_le_succ_iff], fun hlen => ?_⟩
      · rw [Nat.succ_min_succ, ptrs]
        exact List.append_assoc _ _ _
      · rw [← toUInt8_or, hdata (by omega)]
        show s.data + 1 + 1 + _ = _
        omega
    · have hv' : v < 0x80 := UInt64.lt_iff_toNat_lt.mpr (by simpa using hv)
      rw [if_pos hv', if_neg hv]
      refine ⟨?_, ?_, by simp, fun _ => rfl⟩
      · simp [pokes, VarintPut.poke, VarintPut.step]
      · simp [ptrs, VarintPut.poke, VarintPut.step]

/-- **What `b_put_varint` writes**: as much of the form of the number as there is room for. -/
theorem putVarintAt_eq (b : RawBuf) (v : UInt64) :
    (b.putVarintAt v).1.mem = pokes b.size b.mem (b.peekOfs b.data)
        ((varint v.toNat).take (b.size - b.data)) ∧
      (b.putVarintAt v).1.written = ptrs b.size (b.peekOfs b.data)
        (min (b.size - b.data) (varint v.toNat).length) ∧
      (b.putVarintAt v).2 = decide ((varint v.toNat).length ≤ b.size - b.data) ∧
      ((varint v.toNat).length ≤ b.size - b.data →
        (b.putVarintAt v).1.data = b.data + (varint v.toNat).length) := by
  rw [RawBuf.putVarintAt]
  dsimp only
  rcases b.size - b.data with - | left
  · simp [pokes, ptrs, varint_ne_nil]
  · dsimp only
    rw [varint]
    by_cases hv : v.toNat < 240
    · have hv' : ¬ v ≥ 0xF0 := UInt64.not_le.mpr (UInt64.lt_iff_toNat_lt.mpr hv)
      rw [if_neg hv', if_pos hv]
      refine ⟨?_, ?_, by simp, fun _ => rfl⟩
      · simp [pokes, VarintPut.poke]
      · simp [ptrs, VarintPut.poke]
    · have hv' : v ≥ 0xF0 := UInt64.le_iff_toNat_le.mpr (by simpa using hv)
      have hrest : ((v - 0xF0) >>> 4).toNat = (v.toNat - 240) >>> 4 := by
        rw [UInt64.toNat_shiftRight, UInt64.toNat_sub_of_le _ _ hv']
        rfl
      obtain ⟨hmem, hwritten, hflag, hdata⟩ := putVarintLoop_eq b.size left
        (VarintPut.poke ⟨b.mem, b.peekOfs b.data, b.data, []⟩ (v.toUInt8 ||| 0xF0))
        ((v - 0xF0) >>> 4)
      rw [hrest] at hmem hwritten hflag hdata
      rw [if_pos hv', if_neg hv, hmem, hwritten, hflag, List.length_cons, List.take_succ_cons,
        toUInt8_or]
      refine ⟨rfl, ?_, by simp only [Nat.succ_le_succ_iff], fun hlen => ?_⟩
      · rw [Nat.succ_min_succ, ptrs]
        rfl
      · rw [← toUInt8_or, hdata (by omega)]
        show b.data + 1 + _ = _
        omega

/-! ### What is read -/

theorem and_0x80_eq_zero_iff (c : UInt8) : c &&& 0x80 = 0 ↔ ¬ 128 ≤ c := by
  rw [← UInt8.toNat_inj, UInt8.le_iff_toNat_le, UInt8.toNat_and]
  have hall : ∀ n < 256, n &&& 128 = 0 ↔ ¬ 128 ≤ n := by decide +kernel
  exact hall c.toNat c.toNat_lt

theorem getVarintLoop_eq (mem : ℕ → UInt8) (size : ℕ) (v : UInt64) (bits head left : ℕ) :
    (getVarintLoop mem size v bits head (left + 1)).2
        = (decodeVarintLoop v bits ((ptrs size (wrapNext size head) left).map mem)).map
            (fun o => (o.1, o.2.length)) ∧
      (getVarintLoop mem size v bits head (left + 1)).1
        = (ptrs size (wrapNext size head) left).take
            (groupsSpan ((ptrs size (wrapNext size head) left).map mem)) := by
  induction left generalizing v bits head with
  | zero => exact ⟨rfl, rfl⟩
  | succ left ih =>
    rw [getVarintLoop, ptrs, List.map_cons, decodeVarintLoop, groupsSpan]
    dsimp only
    by_cases hc : 128 ≤ mem (wrapNext size head)
    · obtain ⟨hres, hreads⟩ := ih (v + (mem (wrapNext size head)).toUInt64 <<< UInt64.ofNat bits)
        (bits + 7) (wrapNext size head)
      rw [if_neg (not_not.mpr hc ∘ (and_0x80_eq_zero_iff _).mp), if_pos hc, if_pos hc, hres,
        hreads]
      exact ⟨rfl, rfl⟩
    · rw [if_pos ((and_0x80_eq_zero_iff _).mpr hc), if_neg hc, if_neg hc]
      exact ⟨by simp, by simp⟩

/-- **What the two functions read.** -/
theorem getVarintAt_eq (mem : ℕ → UInt8) (size head data : ℕ) :
    (getVarintAt mem size head data).2
        = (decodeVarint ((ptrs size head data).map mem)).map (fun o => (o.1, o.2.length)) ∧
      (getVarintAt mem size head data).1
        = (ptrs size head data).take (varintSpan ((ptrs size head data).map mem)) := by
  rcases data with - | left
  · exact ⟨rfl, rfl⟩
  · rw [getVarintAt, ptrs, List.map_cons, decodeVarint, varintSpan]
    dsimp only
    by_cases hc : mem head < 240
    · rw [if_neg (UInt8.not_le.mpr hc), if_pos hc, if_pos hc]
      exact ⟨by simp, by simp⟩
    · obtain ⟨hres, hreads⟩ := getVarintLoop_eq mem size (mem head).toUInt64 4 head left
      rw [if_pos (UInt8.not_lt.mp hc), if_neg hc, if_neg hc, hres, hreads]
      exact ⟨rfl, rfl⟩

/-- **The bytes are those from `head` on, as long as the number ends before the end of the area**;
`c` are the bytes that the functions mean to read. -/
theorem getVarintAt_iff {mem : ℕ → UInt8} {head data : ℕ} {c : List UInt8} (hhead : head ≤ size)
    (hlen : c.length = data)
    (hc : c.take (size - head) = readAt mem head (min data (size - head))) :
    ((∀ a ∈ (getVarintAt mem size head data).1, a < size) ↔ head + varintSpan c ≤ size) ∧
      (head + varintSpan c ≤ size → (getVarintAt mem size head data).2
        = (decodeVarint c).map fun o => (o.1, o.2.length)) := by
  obtain ⟨hres, hreads⟩ := getVarintAt_eq mem size head data
  have hspan := varintSpan_le c
  rw [hres, hreads]
  rcases Nat.lt_or_ge (size - head) data with hlong | hshort
  · -- the bytes go on behind the end of the area
    obtain ⟨n, hn⟩ : ∃ n, data = (size - head) + (n + 1) := ⟨data - (size - head) - 1, by omega⟩
    rw [Nat.min_eq_right hlong.le] at hc
    have hsplit : c = readAt mem head (size - head) ++ c.drop (size - head) := by
      rw [← hc, List.take_append_drop]
    have hptrs : ptrs size head data
        = List.range' head (size - head) ++ ptrs size (head + (size - head)) (n + 1) := by
      rw [hn]
      exact ptrs_add _ (by omega)
    have hread : (ptrs size head data).map mem
        = readAt mem head (size - head) ++ (ptrs size (head + (size - head)) (n + 1)).map mem := by
      rw [hptrs, List.map_append, readAt, List.range'_eq_map_range, List.map_map]
      rfl
    have hx : c.drop (size - head) ≠ [] := by
      rw [← List.length_pos_iff, List.length_drop]
      omega
    have hy : (ptrs size (head + (size - head)) (n + 1)).map mem ≠ [] := by
      simp [ptrs]
    have hxlen : (c.drop (size - head)).length = n + 1 := by
      rw [List.length_drop]
      omega
    have hylen : ((ptrs size (head + (size - head)) (n + 1)).map mem).length = n + 1 := by
      rw [List.length_map, length_ptrs]
    have hplen : (readAt mem head (size - head)).length = size - head := length_readAt _ _ _
    have hspan' := varintSpan_le ((ptrs size head data).map mem)
    rw [List.length_map, length_ptrs] at hspan'
    rw [hsplit] at hspan ⊢
    rw [hread] at hspan' ⊢
    generalize c.drop (size - head) = x at hx hxlen hspan ⊢
    generalize (ptrs size (head + (size - head)) (n + 1)).map mem = y at hy hylen hspan' ⊢
    by_cases hend : head + varintSpan (readAt mem head (size - head) ++ x) ≤ size
    · obtain ⟨⟨v, rest⟩, hdec⟩ := decodeVarint_of_span (l := readAt mem head (size - head)) (x := x)
        (by omega) hx
      obtain ⟨hdecx, -⟩ := decodeVarint_append hdec x
      obtain ⟨hdecy, hspany⟩ := decodeVarint_append hdec y
      refine ⟨iff_of_true (fun a ha => ?_) hend, fun _ => ?_⟩
      · rw [hptrs, List.take_append_of_le_length (by rw [List.length_range']; omega)] at ha
        have := List.mem_range'_1.mp (List.mem_of_mem_take ha)
        omega
      · rw [hdecx, hdecy, Option.map_some, Option.map_some, List.length_append, List.length_append,
          hxlen, hylen]
    · refine ⟨iff_of_false (fun hin => ?_) hend, fun h => absurd h hend⟩
      have hgt := varintSpan_gt (l := readAt mem head (size - head)) (x := x) (by omega) hy
      exact absurd (hin size (size_mem_take_ptrs hhead (by omega) hspan')) (lt_irrefl _)
  · -- all of them are in the area
    rw [Nat.min_eq_left hshort, List.take_of_length_le (by omega)] at hc
    have hptrs : ptrs size head data = List.range' head data := ptrs_eq_range' (by omega)
    have hread : (ptrs size head data).map mem = c := by
      rw [hptrs, hc, readAt, List.range'_eq_map_range, List.map_map]
      rfl
    rw [hread]
    refine ⟨iff_of_true (fun a ha => ?_) (by omega), fun _ => rfl⟩
    have := List.mem_of_mem_take ha
    rw [hptrs, List.mem_range'_1] at this
    omega

/-! ### Buffers -/

/-- The head may stand on the end of the area, as after `b_slow_realign_ofs`. -/
structure RawBuf.Valid (b : RawBuf) : Prop where
  head_le : b.head ≤ b.size
  data_le : b.data ≤ b.size

section Buffers

variable {b : RawBuf}

theorem bSize_toBuffer (b : RawBuf) : bSize b.toBuffer = b.size := length_readAt _ _ _

theorem bPeekOfs_toBuffer (b : RawBuf) (ofs : ℕ) : bPeekOfs b.toBuffer ofs = b.peekOfs ofs := by
  rw [bPeekOfs, RawBuf.peekOfs, bSize_toBuffer]
  rfl

theorem RawBuf.Valid.toBuffer (hb : b.Valid) : b.toBuffer.Valid where
  head_le := by
    rw [bSize_toBuffer]
    exact hb.head_le
  data_le := by
    rw [bSize_toBuffer]
    exact hb.data_le

theorem RawBuf.Valid.length_content (hb : b.Valid) : b.content.length = b.data :=
  hb.toBuffer.length_content

theorem getElem?_area (hk : k < b.size) : b.toBuffer.area[k]? = some (b.mem k) := by
  have := getElem?_readAt b.mem 0 hk
  rwa [Nat.zero_add] at this

theorem RawBuf.peekOfs_lt (hb : b.Valid) (hk : k < b.data) : b.peekOfs k < b.size := by
  have h1 := hb.head_le
  have h2 := hb.data_le
  rw [RawBuf.peekOfs]
  split_ifs <;> omega

theorem RawBuf.getElem?_content (hb : b.Valid) (hk : k < b.data) :
    b.content[k]? = some (b.mem (b.peekOfs k)) := by
  have hk' : k < b.toBuffer.data := hk
  rw [RawBuf.content, SmartHAProxy.getElem?_content hb.toBuffer, if_pos hk', bPeekOfs_toBuffer,
    getElem?_area (RawBuf.peekOfs_lt hb hk)]

theorem RawBuf.take_content (hb : b.Valid) (hofs : ofs ≤ b.data) :
    (b.content.drop ofs).take (b.size - b.peekOfs ofs)
      = readAt b.mem (b.peekOfs ofs) (min (b.data - ofs) (b.size - b.peekOfs ofs)) := by
  have hlen := hb.length_content
  apply List.ext_getElem?
  intro k
  rw [List.getElem?_take, List.getElem?_drop]
  by_cases hk : k < min (b.data - ofs) (b.size - b.peekOfs ofs)
  · rw [getElem?_readAt _ _ hk, if_pos (by omega), RawBuf.getElem?_content hb (by omega)]
    refine congrArg (fun i => some (b.mem i)) ?_
    have hin : b.peekOfs ofs + k < b.size := by omega
    have h1 := hb.head_le
    have h2 := hb.data_le
    simp only [RawBuf.peekOfs] at hin ⊢
    split_ifs at hin ⊢ <;> omega
  · have hnone : (readAt b.mem (b.peekOfs ofs) (min (b.data - ofs) (b.size - b.peekOfs ofs)))[k]?
        = none := List.getElem?_eq_none (by rw [length_readAt]; omega)
    rw [hnone]
    split_ifs with hk'
    · exact List.getElem?_eq_none (by omega)
    · rfl

/-! ### The three functions -/

/-- What `b_peek_varint` is for: no byte is accessed outside of the area, and the number that
stands at the offset is read. -/
def PeekExact (b : RawBuf) (ofs : ℕ) : Prop :=
  (∀ a ∈ (b.bPeekVarint ofs).1, a < b.size) ∧
    (b.bPeekVarint ofs).2 = (decodeVarint (b.content.drop ofs)).map
      fun o => (o.1, b.data - ofs - o.2.length)

/-- What `b_get_varint` is for: the same at the head, and the bytes of the number are deleted. -/
def GetExact (b : RawBuf) : Prop :=
  (∀ a ∈ b.bGetVarint.2.1, a < b.size) ∧
    b.bGetVarint.2.2 = (decodeVarint b.content).map (fun o => (o.1, b.data - o.2.length)) ∧
    b.bGetVarint.1 = match decodeVarint b.content with
      | none => b
      | some o => b.del (b.data - o.2.length)

/-- What `b_put_varint` is for: no byte is accessed outside of the area; it returns 0 if and only
if there is no room, and then nothing has changed; otherwise the number is appended, and read back
from where it is. -/
structure PutExact (b : RawBuf) (v : UInt64) : Prop where
  inside : ∀ a ∈ (b.putVarintAt v).1.written, a < b.size
  fits : (b.bPutVarint v).2 = 0 ↔ b.size - b.data < varintBytesOf v
  kept : (b.bPutVarint v).2 = 0 → (b.bPutVarint v).1.head = b.head ∧
    (b.bPutVarint v).1.data = b.data ∧ (b.bPutVarint v).1.content = b.content
  appended : (b.bPutVarint v).2 ≠ 0 → (b.bPutVarint v).2 = varintBytesOf v ∧
    (b.bPutVarint v).1.content = b.content ++ varint v.toNat
  peeked : (b.bPutVarint v).2 ≠ 0 → PeekExact (b.bPutVarint v).1 b.data ∧
    ((b.bPutVarint v).1.bPeekVarint b.data).2 = some (v, (b.bPutVarint v).2)
  gotten : (b.bPutVarint v).2 ≠ 0 → GetExact ((b.bPutVarint v).1.del b.data) ∧
    ((b.bPutVarint v).1.del b.data).bGetVarint.2.2 = some (v, (b.bPutVarint v).2)

theorem RawBuf.peekOfs_le (hb : b.Valid) (hofs : ofs ≤ b.data) : b.peekOfs ofs ≤ b.size := by
  have h1 := hb.head_le
  have h2 := hb.data_le
  rw [RawBuf.peekOfs]
  split_ifs <;> omega

/-- **`b_peek_varint` is exact if and only if the number, or the data, end before the end of the
area does.** -/
theorem peekExact_iff (hb : b.Valid) (hofs : ofs ≤ b.data) :
    PeekExact b ofs ↔ b.peekOfs ofs + varintSpan (b.content.drop ofs) ≤ b.size := by
  have hlen := hb.length_content
  have hrest : (b.content.drop ofs).length = b.data - ofs := by
    rw [List.length_drop, hlen]
  obtain ⟨hin, hres⟩ := getVarintAt_iff (RawBuf.peekOfs_le hb hofs) hrest
    (RawBuf.take_content hb hofs)
  refine ⟨fun h => hin.mp h.1, fun h => ⟨hin.mpr h, ?_⟩⟩
  show Option.map _ (getVarintAt _ _ _ _).2 = _
  rw [hres h, Option.map_map]
  rfl

/-- **`b_get_varint` is exact if and only if the number, or the data, end before the end of the
area does.** -/
theorem getExact_iff (hb : b.Valid) : GetExact b ↔ b.head + varintSpan b.content ≤ b.size := by
  have hlen := hb.length_content
  have htake : b.content.take (b.size - b.head)
      = readAt b.mem b.head (min b.data (b.size - b.head)) := by
    rcases hb.head_le.lt_or_eq with hlt | heq
    · have hpeek : b.peekOfs 0 = b.head := if_neg (by omega)
      have := RawBuf.take_content hb (Nat.zero_le b.data)
      rwa [hpeek, List.drop_zero, Nat.sub_zero] at this
    · simp [heq]
  obtain ⟨hin, hres⟩ := getVarintAt_iff hb.head_le hlen htake
  have hreads : b.bGetVarint.2.1 = (getVarintAt b.mem b.size b.head b.data).1 := by
    rw [RawBuf.bGetVarint]
    rcases (getVarintAt b.mem b.size b.head b.data).2 with - | ⟨v, left⟩ <;> rfl
  rw [GetExact, hreads]
  refine ⟨fun h => hin.mp h.1, fun h => ⟨hin.mpr h, ?_⟩⟩
  rw [RawBuf.bGetVarint, hres h]
  rcases decodeVarint b.content with - | ⟨v, rest⟩
  · exact ⟨rfl, rfl⟩
  · exact ⟨rfl, rfl⟩

/-- The buffer with bytes in the room behind its data. -/
def RawBuf.fill (b : RawBuf) (bs : List UInt8) : RawBuf :=
  { b with mem := writeAt b.mem (b.peekOfs b.data) bs }

/-- The buffer with bytes appended to its data. -/
def RawBuf.append (b : RawBuf) (bs : List UInt8) : RawBuf :=
  { b.fill bs with data := b.data + bs.length }

theorem RawBuf.writeAt_peekOfs (hb : b.Valid) {bs : List UInt8}
    (hroom : bs.length ≤ b.size - b.data) (hk : k < b.data) :
    writeAt b.mem (b.peekOfs b.data) bs (b.peekOfs k) = b.mem (b.peekOfs k) := by
  have h1 := hb.head_le
  have h2 := hb.data_le
  apply writeAt_outside
  simp only [RawBuf.peekOfs]
  split_ifs <;> omega

theorem RawBuf.content_fill (hb : b.Valid) (bs : List UInt8)
    (hroom : bs.length ≤ b.size - b.data) : (b.fill bs).content = b.content := by
  have hb' : (b.fill bs).Valid := ⟨hb.head_le, hb.data_le⟩
  apply List.ext_getElem?
  intro k
  by_cases hk : k < b.data
  · rw [RawBuf.getElem?_content hb' hk, RawBuf.getElem?_content hb hk]
    exact congrArg some (RawBuf.writeAt_peekOfs hb hroom hk)
  · have hlen := hb.length_content
    have hlen' := hb'.length_content
    have hdata : (b.fill bs).data = b.data := rfl
    rw [List.getElem?_eq_none (by omega), List.getElem?_eq_none (by omega)]

theorem RawBuf.content_append (hb : b.Valid) {bs : List UInt8}
    (hroom : bs.length ≤ b.size - b.data) (hend : b.peekOfs b.data + bs.length ≤ b.size) :
    (b.append bs).Valid ∧ (b.append bs).content = b.content ++ bs := by
  have h1 := hb.head_le
  have h2 := hb.data_le
  have hb' : (b.append bs).Valid := ⟨h1, show b.data + bs.length ≤ b.size by omega⟩
  have hlen := hb.length_content
  have hlen' : _ = b.data + bs.length := hb'.length_content
  refine ⟨hb', ?_⟩
  apply List.ext_getElem?
  intro k
  rcases Nat.lt_or_ge k b.data with hk | hk
  · rw [RawBuf.getElem?_content hb' (show k < b.data + bs.length by omega),
      List.getElem?_append_left (by omega), RawBuf.getElem?_content hb hk]
    exact congrArg some (RawBuf.writeAt_peekOfs hb hroom hk)
  · obtain ⟨j, rfl⟩ := Nat.exists_eq_add_of_le hk
    rw [List.getElem?_append_right (by omega), hlen, Nat.add_sub_cancel_left]
    rcases Nat.lt_or_ge j bs.length with hj | hj
    · -- the byte `j` of the new ones stands `j` bytes behind the old tail
      have hpeek : b.peekOfs (b.data + j) = b.peekOfs b.data + j := by
        simp only [RawBuf.peekOfs] at hend ⊢
        split_ifs at hend ⊢ <;> omega
      rw [RawBuf.getElem?_content hb' (show b.data + j < b.data + bs.length by omega),
        List.getElem?_eq_getElem hj]
      exact congrArg some ((congrArg _ hpeek).trans (writeAt_inside _ _ _ hj))
    · rw [List.getElem?_eq_none (by omega), List.getElem?_eq_none hj]

theorem RawBuf.content_del (hb : b.Valid) (hn : n ≤ b.data) :
    (b.del n).Valid ∧ (b.del n).content = b.content.drop n := by
  have hbuf : (b.del n).toBuffer = bDel b.toBuffer n :=
    congrArg (Buffer.mk _ · (b.data - n)) (bPeekOfs_toBuffer b n).symm
  obtain ⟨hsize, hvalid, hcontent⟩ := bDel_content hb.toBuffer hn
  refine ⟨⟨?_, ?_⟩, ?_⟩
  · have := hvalid.head_le
    rwa [← hbuf, bSize_toBuffer] at this
  · have := hvalid.data_le
    rwa [← hbuf, bSize_toBuffer] at this
  · rw [RawBuf.content, hbuf, hcontent]
    rfl

/-- **`b_put_varint` is exact if and only if the bytes that it writes end before the end of the
area does.** -/
theorem putExact_iff (hb : b.Valid) (v : UInt64) :
    PutExact b v ↔ b.peekOfs b.data + min (b.size - b.data) (varintBytesOf v) ≤ b.size := by
  obtain ⟨hmem, hwritten, hflag, hdata⟩ := putVarintAt_eq b v
  have htail := RawBuf.peekOfs_le hb le_rfl
  have hbytes := varintBytesOf_eq v
  have hpos : 0 < (varint v.toNat).length := List.length_pos_iff.mpr (varint_ne_nil _)
  rw [hbytes]
  constructor
  · -- otherwise the first byte behind the area is among the written ones
    intro h
    by_contra hlt
    have hin := size_mem_take_ptrs htail (not_le.mp hlt) le_rfl
    rw [List.take_of_length_le (by rw [length_ptrs]), ← hwritten] at hin
    exact absurd (h.inside _ hin) (lt_irrefl _)
  · intro hend
    have hlen : ((varint v.toNat).take (b.size - b.data)).length
        = min (b.size - b.data) (varint v.toNat).length := List.length_take
    rw [pokes_eq_writeAt (by rw [hlen]; exact hend)] at hmem
    have hinside : ∀ a ∈ (b.putVarintAt v).1.written, a < b.size := by
      intro a ha
      rw [hwritten, ptrs_eq_range' hend, List.mem_range'_1] at ha
      omega
    -- either the number fits, or its beginning is written and nothing is kept
    by_cases hfit : (varint v.toNat).length ≤ b.size - b.data
    · have hput : b.bPutVarint v
          = (b.append (varint v.toNat), (varint v.toNat).length) := by
        simp only [RawBuf.bPutVarint, hflag, decide_eq_true hfit, if_true, hmem, hdata hfit,
          Nat.add_sub_cancel_left, List.take_of_length_le hfit, RawBuf.append, RawBuf.fill]
      rw [Nat.min_eq_right hfit] at hend
      obtain ⟨hb', hcontent⟩ := RawBuf.content_append hb hfit hend
      have hb'' : b.data ≤ (b.append (varint v.toNat)).data := Nat.le_add_right _ _
      have hdrop : (b.append (varint v.toNat)).content.drop b.data = varint v.toNat := by
        rw [hcontent, List.drop_left' hb.length_content]
      obtain ⟨hdel, hdelc⟩ := RawBuf.content_del hb' hb''
      have hdec := decodeVarint_varint v.toNat_lt []
      rw [List.append_nil, UInt64.ofNat_toNat] at hdec
      have hpeek : PeekExact (b.append (varint v.toNat)) b.data := by
        rw [peekExact_iff hb' hb'', hdrop, varintSpan_varint v.toNat_lt]
        exact hend
      have hget : GetExact ((b.append (varint v.toNat)).del b.data) := by
        rw [getExact_iff hdel, hdelc, hdrop, varintSpan_varint v.toNat_lt]
        exact hend
      exact
        { inside := hinside
          fits := by
            rw [hput, hbytes]
            exact iff_of_false (by omega) (by omega)
          kept := fun h => by
            rw [hput] at h
            omega
          appended := fun _ => by
            rw [hput, hbytes]
            exact ⟨rfl, hcontent⟩
          peeked := fun _ => by
            rw [hput]
            refine ⟨hpeek, ?_⟩
            rw [hpeek.2, hdrop, hdec]
            show some (v, b.data + _ - b.data - 0) = _
            rw [Nat.add_sub_cancel_left]
            rfl
          gotten := fun _ => by
            rw [hput]
            refine ⟨hget, ?_⟩
            rw [hget.2.1, hdelc, hdrop, hdec]
            show some (v, b.data + _ - b.data - 0) = _
            rw [Nat.add_sub_cancel_left]
            rfl }
    · have hput : b.bPutVarint v
          = (b.fill ((varint v.toNat).take (b.size - b.data)), 0) := by
        simp only [RawBuf.bPutVarint, hflag, decide_eq_false hfit, Bool.false_eq_true, if_false,
          hmem, RawBuf.fill]
      have hcontent := RawBuf.content_fill hb ((varint v.toNat).take (b.size - b.data))
        (by omega)
      exact
        { inside := hinside
          fits := by
            rw [hput, hbytes]
            exact iff_of_true rfl (by omega)
          kept := fun _ => by
            rw [hput]
            exact ⟨rfl, rfl, hcontent⟩
          appended := fun h => absurd (by rw [hput]) h
          peeked := fun h => absurd (by rw [hput]) h
          gotten := fun h => absurd (by rw [hput]) h }

end Buffers

/-- **Varints in ring buffers are exact if and only if no access passes the end of the area**: for
`b_put_varint` if the bytes of the number, or as many as there is room for, end there or before, and
for the other two if the number that they read, or the data, do. -/
theorem varint_ring_iff (b : RawBuf) (hb : b.Valid) (v : UInt64) (ofs : ℕ) (hofs : ofs ≤ b.data) :
    (PutExact b v ↔ b.peekOfs b.data + min (b.size - b.data) (varintBytesOf v) ≤ b.size) ∧
    (PeekExact b ofs ↔ b.peekOfs ofs + varintSpan (b.content.drop ofs) ≤ b.size) ∧
    (GetExact b ↔ b.head + varintSpan b.content ≤ b.size) :=
  ⟨putExact_iff hb v, peekExact_iff hb hofs, getExact_iff hb⟩

/-- A buffer of 8 bytes with one byte in the middle. -/
theorem varint_ring_iff_eight :
    (PutExact ⟨fun _ => 7, 8, 3, 1⟩ 300
        ↔ RawBuf.peekOfs ⟨fun _ => 7, 8, 3, 1⟩ 1 + min (8 - 1) (varintBytesOf 300) ≤ 8) ∧
    (PeekExact ⟨fun _ => 7, 8, 3, 1⟩ 0 ↔ RawBuf.peekOfs ⟨fun _ => 7, 8, 3, 1⟩ 0
        + varintSpan ((RawBuf.content ⟨fun _ => 7, 8, 3, 1⟩).drop 0) ≤ 8) ∧
    (GetExact ⟨fun _ => 7, 8, 3, 1⟩
        ↔ 3 + varintSpan (RawBuf.content ⟨fun _ => 7, 8, 3, 1⟩) ≤ 8) :=
  varint_ring_iff ⟨fun _ => 7, 8, 3, 1⟩ ⟨by decide, by decide⟩ 300 0 (by decide)

/-- The number 300 put into an empty buffer of 8 bytes with its head on the last one: the second
byte is written at the offset 8. -/
theorem varint_ring_past_end :
    ¬ ∀ (b : RawBuf), b.Valid → ∀ v, PutExact b v := by
  intro hall
  have hbad := (hall ⟨fun _ => 0, 8, 7, 0⟩ ⟨by decide, by decide⟩ 300).inside 8
  exact absurd (hbad (by decide)) (by decide)

end SmartHAProxy
