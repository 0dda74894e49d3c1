/-
Replacing a part of a buffer in its place (haproxy/buf.h).

`b_rep_blk` checks the room with the unwrapped tail `__b_tail`, but takes the length
of the bytes to move from `b_tail`, which stands on the start of the area when the
data end at the end of it: the difference is negative then, and `memmove` gets it as
a `size_t`.  `repExact_iff` tells exactly when the replacement does what it is for.

The areas have less than 2^31 bytes, as the sizes of all buffers are kept in an
`int`; the block may have any length, and `delta` is cut to 32 bits.
-/
import SmartHAProxy.Buf.Content
import Mathlib.Algebra.Ring.Int.Defs
import Mathlib.Algebra.Ring.Nat

namespace SmartHAProxy

/-! ### The function -/

/-- `memmove` within an area, where the arguments come from pointer arithmetic: a negative length
is one of 2^63 bytes or more. -/
def memmoveAt {α : Type} (mem : List α) (dst src n : ℤ) : Except Fault (List α) :=
  if n = 0 then .ok mem
  else if 0 ≤ dst ∧ 0 ≤ src ∧ 0 < n then memcpy mem dst.toNat mem src.toNat n.toNat
  else .error .outOfBounds

def bRealignIfEmpty (b : Buffer) : Buffer := if b.data = 0 then { b with head := 0 } else b

/-- `b_rep_blk`, for the offsets `pos` and `fin` of its pointers in the area. -/
def bRepBlk (b : Buffer) (pos fin : ℕ) (blk : List UInt8) : Except Fault (Buffer × ℤ) :=
  let len := blk.length
  let delta : ℤ := ((len : ℤ) - (fin - pos)).bmod (2 ^ 32)
  if (b.head + b.data : ℤ) + delta > bSize b then .ok (b, 0)
  else if b.data ≠ 0 ∧ (bTailOfs b : ℤ) + delta > b.head ∧ b.head ≥ bTailOfs b then .ok (b, 0)
  else do
    -- first, protect the end of the buffer
    let area₁ ← memmoveAt b.area (fin + delta) fin ((bTailOfs b : ℤ) - fin)
    -- now, copy blk over pos
    let area₂ ← memWrite area₁ pos blk
    pure (bRealignIfEmpty { b with area := area₂, data := ((b.data : ℤ) + delta).toNat }, delta)

/-! ### What it is for -/

/-- The buffer is left as it is, for lack of room if the length would change, or the bytes from
`pos` up to `fin` are replaced; no byte outside of the area is touched. -/
def RepExact (b : Buffer) (pos fin : ℕ) (blk : List UInt8) : Prop :=
  ∃ b' ret, bRepBlk b pos fin blk = .ok (b', ret) ∧
    ((b' = b ∧ ret = 0 ∧
        (blk.length + pos ≠ fin → bSize b < b.head + b.data + blk.length + pos - fin)) ∨
      (b'.content = b.content.take (pos - b.head) ++ (blk ++ b.content.drop (fin - b.head)) ∧
        ret = (blk.length : ℤ) - (fin - pos)))

/-- The data end behind `fin` at the end of the area, and are not to grow. -/
def RepAtEnd (b : Buffer) (pos fin : ℕ) (blk : List UInt8) : Prop :=
  b.head + b.data = bSize b ∧ 0 < fin ∧ blk.length + pos ≤ fin

section Rep

variable {b : Buffer} {pos fin : ℕ} {blk : List UInt8}

theorem bmod_of_lt {d : ℤ} (hlow : -2 ^ 31 ≤ d) (hhigh : d < 2 ^ 31) : d.bmod (2 ^ 32) = d := by
  rw [Int.bmod_def]
  split_ifs <;> omega

theorem bTailOfs_cases (hwrap : b.head + b.data ≤ bSize b) :
    b.head + b.data < bSize b ∧ bTailOfs b = b.head + b.data ∨
      b.head + b.data = bSize b ∧ bTailOfs b = 0 := by
  rw [bTailOfs, bPeekOfs]
  split_ifs <;> omega

theorem memmoveAt_neg {α : Type} {mem : List α} {dst src n : ℤ} (hn : n < 0) :
    memmoveAt mem dst src n = .error .outOfBounds := by
  rw [memmoveAt, if_neg (by omega), if_neg (by omega)]

/-- Moving the end, and the block over the place in front of it. -/
theorem moved_area (a blk : List UInt8) (pos : ℕ) {T : ℕ} (hfT : fin ≤ T) (hT : T ≤ a.length)
    (hroom : pos + blk.length + (T - fin) ≤ a.length) :
    ∃ a₁ a₂, memmoveAt a (pos + blk.length) fin ((T : ℤ) - fin) = .ok a₁ ∧
      memWrite a₁ pos blk = .ok a₂ ∧ a₂ = a.take pos ++ (blk ++ ((a.drop fin).take (T - fin)
        ++ a.drop (pos + blk.length + (T - fin)))) := by
  have hlen : ((a.drop fin).take (T - fin)).length = T - fin := by
    rw [List.length_take, List.length_drop]
    omega
  have hmove : memmoveAt a (pos + blk.length) fin ((T : ℤ) - fin)
      = .ok (overwrite a (pos + blk.length) ((a.drop fin).take (T - fin))) := by
    rw [memmoveAt]
    split_ifs with h0 hpos
    · rw [show T - fin = 0 by omega, List.take_zero, overwrite_nil]
    · have hread : memRead a fin (T - fin) = .ok ((a.drop fin).take (T - fin)) :=
        memRead_eq (.inr (by omega))
      have hdst : ((pos : ℤ) + blk.length).toNat = pos + blk.length := by omega
      have hn : ((T : ℤ) - fin).toNat = T - fin := by omega
      rw [hdst, hn, Int.toNat_natCast, memcpy, hread]
      exact memWrite_eq (.inr (by omega))
    · omega
  refine ⟨_, _, hmove, memWrite_eq ?_, ?_⟩
  · rw [length_overwrite (.inr (by omega))]
    exact .inr (by omega)
  have hlen' : (overwrite a (pos + blk.length) ((a.drop fin).take (T - fin))).length = a.length :=
    length_overwrite (.inr (by omega))
  rw [overwrite]
  have htake : (overwrite a (pos + blk.length) ((a.drop fin).take (T - fin))).take pos
      = a.take pos := by
    rw [overwrite, List.append_assoc, List.take_append_of_le_length
      (by rw [List.length_take]; omega), List.take_take, Nat.min_eq_left (by omega)]
  have hdrop : (overwrite a (pos + blk.length) ((a.drop fin).take (T - fin))).drop
      (pos + blk.length) = (a.drop fin).take (T - fin)
        ++ a.drop (pos + blk.length + (T - fin)) := by
    rw [overwrite, List.append_assoc, List.drop_left' (by rw [List.length_take]; omega), hlen]
  rw [htake, hdrop, List.append_assoc]

theorem length_memmoveAt {α : Type} {mem mem' : List α} {dst src n : ℤ}
    (h : memmoveAt mem dst src n = .ok mem') : mem'.length = mem.length := by
  rw [memmoveAt] at h
  split_ifs at h with h0 hpos
  · obtain rfl : mem = mem' := by simpa using h
    rfl
  · rw [memcpy, memRead] at h
    split_ifs at h with hread
    · change memWrite _ _ _ = _ at h
      rw [memWrite] at h
      split_ifs at h with hwrite
      · obtain rfl := Except.ok.inj h
        exact length_overwrite hwrite
    · cases h

theorem content_of_le (hwrap : b.head + b.data ≤ bSize b) :
    b.content = (b.area.drop b.head).take b.data := by
  have hsize : bSize b = b.area.length := rfl
  rw [Buffer.content, List.take_append_of_le_length (by rw [List.length_drop]; omega)]

theorem content_realignIfEmpty (b : Buffer) : (bRealignIfEmpty b).content = b.content := by
  rw [bRealignIfEmpty]
  split_ifs with h0
  · simp [Buffer.content, h0]
  · rfl

/-- The content after the part is replaced in the area. -/
theorem content_replaced (hwrap : b.head + b.data ≤ bSize b) (hpos : b.head ≤ pos)
    (hpf : pos ≤ fin) (hfin : fin ≤ b.head + b.data) (rest : List UInt8) :
    Buffer.content
        { area := b.area.take pos
            ++ (blk ++ ((b.area.drop fin).take (b.head + b.data - fin) ++ rest))
          head := b.head
          data := pos - b.head + blk.length + (b.head + b.data - fin) }
      = b.content.take (pos - b.head) ++ (blk ++ b.content.drop (fin - b.head)) := by
  have hsize : bSize b = b.area.length := rfl
  have hfront : (b.area.take pos).length = pos := by
    rw [List.length_take]
    omega
  have hend : ((b.area.drop fin).take (b.head + b.data - fin)).length = b.head + b.data - fin := by
    rw [List.length_take, List.length_drop]
    omega
  have htake : b.content.take (pos - b.head) = (b.area.take pos).drop b.head := by
    rw [content_of_le hwrap, List.take_take, Nat.min_eq_left (by omega), List.drop_take]
  have hdrop : b.content.drop (fin - b.head)
      = (b.area.drop fin).take (b.head + b.data - fin) := by
    rw [content_of_le hwrap, List.drop_take, List.drop_drop,
      show b.head + (fin - b.head) = fin by omega,
      show b.data - (fin - b.head) = b.head + b.data - fin by omega]
  rw [htake, hdrop, content_of_le]
  · show ((b.area.take pos ++ _).drop b.head).take _ = _
    have hgroup : (b.area.take pos).drop b.head
          ++ (blk ++ ((b.area.drop fin).take (b.head + b.data - fin) ++ rest))
        = ((b.area.take pos).drop b.head
          ++ (blk ++ (b.area.drop fin).take (b.head + b.data - fin))) ++ rest := by
      simp only [List.append_assoc]
    rw [List.drop_append_of_le_length (by omega), hgroup]
    refine List.take_left' ?_
    simp only [List.length_append, List.length_drop, hfront, hend]
    omega
  · show _ ≤ List.length _
    simp only [List.length_append, hfront, hend]
    omega

/-- **`b_rep_blk` does what it is for if and only if the data do not end at the end of the area
without having to grow, and the change of length fits an `int`** or is refused as it is cut. -/
theorem repExact_iff (b : Buffer) (pos fin : ℕ) (blk : List UInt8)
    (hwrap : b.head + b.data ≤ bSize b) (hsize : bSize b < 2 ^ 31) (hpos : b.head ≤ pos)
    (hpf : pos ≤ fin) (hfin : fin ≤ b.head + b.data) :
    RepExact b pos fin blk ↔ ¬ RepAtEnd b pos fin blk ∧
      (blk.length + pos < 2 ^ 31 + fin ∨
        (bSize b : ℤ) < b.head + b.data + ((blk.length : ℤ) - (fin - pos)).bmod (2 ^ 32)) := by
  have hcut : blk.length + pos < 2 ^ 31 + fin →
      ((blk.length : ℤ) - (fin - pos)).bmod (2 ^ 32) = (blk.length : ℤ) - (fin - pos) :=
    fun hlt => bmod_of_lt (by omega) (by omega)
  generalize hd : ((blk.length : ℤ) - (fin - pos)).bmod (2 ^ 32) = d at hcut ⊢
  by_cases hfull : (b.head + b.data : ℤ) + d > bSize b
  · -- refused
    have hrep : bRepBlk b pos fin blk = .ok (b, 0) := by
      rw [bRepBlk, hd, if_pos hfull]
    refine iff_of_true ⟨b, 0, hrep, .inl ⟨rfl, rfl, fun _ => ?_⟩⟩ ⟨fun hend => ?_, .inr hfull⟩
    · by_cases hlt : blk.length + pos < 2 ^ 31 + fin
      · have := hcut hlt
        omega
      · omega
    · obtain ⟨hT, -, hle⟩ := hend
      have := hcut (by omega)
      omega
  have hsecond : ¬ (b.data ≠ 0 ∧ (bTailOfs b : ℤ) + d > b.head ∧ b.head ≥ bTailOfs b) := by
    rintro ⟨h0, h1, h2⟩
    rcases bTailOfs_cases hwrap with ⟨hT, htail⟩ | ⟨hT, htail⟩ <;> omega
  have hrep : bRepBlk b pos fin blk = (do
      let area₁ ← memmoveAt b.area (fin + d) fin ((bTailOfs b : ℤ) - fin)
      let area₂ ← memWrite area₁ pos blk
      pure (bRealignIfEmpty { b with area := area₂, data := ((b.data : ℤ) + d).toNat }, d)) := by
    rw [bRepBlk, hd, if_neg hfull, if_neg hsecond]
  by_cases hlong : 2 ^ 31 + fin ≤ blk.length + pos
  · -- the block does not fit into the area, whatever the cut difference is
    refine iff_of_false ?_ (fun h => by omega)
    rintro ⟨b', ret, hret, -⟩
    rw [hrep] at hret
    rcases hmove : memmoveAt b.area (fin + d) fin ((bTailOfs b : ℤ) - fin) with e | area₁
    · rw [hmove] at hret
      cases hret
    · have hlen := length_memmoveAt hmove
      have hbs : bSize b = b.area.length := rfl
      have hwrite : memWrite area₁ pos blk = .error .outOfBounds := by
        rw [memWrite, if_neg]
        rintro (rfl | hle)
        · rw [List.length_nil] at hlong
          omega
        · omega
      rw [hmove] at hret
      change (memWrite area₁ pos blk >>= _) = _ at hret
      rw [hwrite] at hret
      cases hret
  have hd' : d = (blk.length : ℤ) - (fin - pos) := hcut (by omega)
  rcases bTailOfs_cases hwrap with ⟨hT, htail⟩ | ⟨hT, htail⟩
  · -- the usual case
    obtain ⟨area₁, area₂, hmove, hwrite, harea⟩ := moved_area b.area blk pos hfin hwrap
      (by have : bSize b = b.area.length := rfl; omega)
    have hdst : (fin : ℤ) + d = pos + blk.length := by omega
    have hlen : ((b.head + b.data : ℕ) : ℤ) - fin = (bTailOfs b : ℤ) - fin := by rw [htail]
    have hdata : ((b.data : ℤ) + d).toNat
        = pos - b.head + blk.length + (b.head + b.data - fin) := by omega
    rw [← hdst, hlen] at hmove
    have hok : bRepBlk b pos fin blk = .ok (bRealignIfEmpty
        { b with area := area₂, data := ((b.data : ℤ) + d).toNat }, d) := by
      rw [hrep, hmove]
      change (memWrite area₁ pos blk >>= _) = _
      rw [hwrite]
      rfl
    refine iff_of_true ⟨_, _, hok, .inr ⟨?_, hd'⟩⟩ ⟨fun hend => ?_, .inl (by omega)⟩
    · rw [content_realignIfEmpty, hdata, harea]
      exact content_replaced hwrap hpos hpf hfin _
    · have := hend.1
      omega
  · by_cases hzero : fin = 0
    · -- nothing is in front of the end, and there is no block
      obtain rfl : blk = [] := List.eq_nil_of_length_eq_zero (by omega)
      obtain rfl : d = 0 := by
        rw [hd', List.length_nil]
        omega
      have hok : bRepBlk b pos fin [] = .ok (bRealignIfEmpty b, 0) := by
        rw [hrep, memmoveAt, if_pos (by omega)]
        show (memWrite b.area pos [] >>= fun area₂ => (Except.ok (bRealignIfEmpty
          { b with area := area₂, data := ((b.data : ℤ) + 0).toNat }, 0) :
            Except Fault (Buffer × ℤ))) = _
        rw [memWrite_nil, Int.add_zero]
        rfl
      refine iff_of_true ⟨_, _, hok, .inr ⟨?_, hd'⟩⟩
        ⟨fun hend => absurd hend.2.1 (by omega), .inl (by omega)⟩
      rw [content_realignIfEmpty, show pos - b.head = 0 by omega,
        show fin - b.head = 0 by omega]
      rfl
    · -- the length of the bytes to move is negative
      refine iff_of_false ?_ fun h => h.1 ⟨hT, by omega, by omega⟩
      rintro ⟨b', ret, hret, -⟩
      rw [hrep, memmoveAt_neg (by omega)] at hret
      cases hret

end Rep

/-- One byte of three is replaced by two, with room behind the data. -/
theorem repExact_iff_four :
    RepExact ⟨[1, 2, 3, 0], 0, 3⟩ 1 2 [8, 9] ↔ ¬ RepAtEnd ⟨[1, 2, 3, 0], 0, 3⟩ 1 2 [8, 9] ∧
      ([8, 9].length + 1 < 2 ^ 31 + 2 ∨
        (bSize ⟨[1, 2, 3, 0], 0, 3⟩ : ℤ) < (0 : ℕ) + (3 : ℕ)
          + ((([8, 9] : List UInt8).length : ℤ) - ((2 : ℕ) - (1 : ℕ))).bmod (2 ^ 32)) :=
  repExact_iff ⟨[1, 2, 3, 0], 0, 3⟩ 1 2 [8, 9] (by decide) (by decide) (by decide) (by decide)
    (by decide)

/-- One byte deleted from a buffer that is full: the length of the bytes to move is -2. -/
theorem repExact_full :
    ¬ ∀ (b : Buffer) (pos fin : ℕ) (blk : List UInt8), b.head + b.data ≤ bSize b →
      bSize b < 2 ^ 31 → b.head ≤ pos → pos ≤ fin → fin ≤ b.head + b.data →
      RepExact b pos fin blk := by
  intro hall
  obtain ⟨b', ret, hret, -⟩ := hall ⟨[1, 2, 3, 4], 0, 4⟩ 1 2 [] (by decide) (by decide) (by decide)
    (by decide) (by decide)
  have hfault : bRepBlk ⟨[1, 2, 3, 4], 0, 4⟩ 1 2 [] = .error .outOfBounds := rfl
  rw [hfault] at hret
  cases hret

end SmartHAProxy
