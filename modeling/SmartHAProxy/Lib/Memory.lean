/-
Storage areas with checked accesses.

A storage area is the list of its bytes.  A copy that reads or writes outside
the area is a fault; a copy of no bytes is none, wherever it points to.  The
proofs look at areas byte by byte: `getElem?_overwrite` says what a write
leaves at each position.
-/
import SmartHAProxy.Lib.CString

namespace SmartHAProxy

variable {α : Type*}

/-- `n` bytes from position `ofs` on. -/
def memRead (mem : List α) (ofs n : ℕ) : Except Fault (List α) :=
  if n = 0 ∨ ofs + n ≤ mem.length then .ok ((mem.drop ofs).take n) else .error .outOfBounds

/-- The area with `blk` at position `ofs`. -/
def overwrite (mem : List α) (ofs : ℕ) (blk : List α) : List α :=
  mem.take ofs ++ blk ++ mem.drop (ofs + blk.length)

/-- Write `blk` at position `ofs`. -/
def memWrite (mem : List α) (ofs : ℕ) (blk : List α) : Except Fault (List α) :=
  if blk = [] ∨ ofs + blk.length ≤ mem.length then .ok (overwrite mem ofs blk)
  else .error .outOfBounds

/-- `memcpy` from one area to another one, and `memmove` within one. -/
def memcpy (dst : List α) (dstOfs : ℕ) (src : List α) (srcOfs n : ℕ) : Except Fault (List α) := do
  let blk ← memRead src srcOfs n
  memWrite dst dstOfs blk

theorem memRead_eq {mem : List α} {ofs n : ℕ} (h : n = 0 ∨ ofs + n ≤ mem.length) :
    memRead mem ofs n = .ok ((mem.drop ofs).take n) := if_pos h

theorem memWrite_eq {mem blk : List α} {ofs : ℕ} (h : blk = [] ∨ ofs + blk.length ≤ mem.length) :
    memWrite mem ofs blk = .ok (overwrite mem ofs blk) := if_pos h

@[simp] theorem overwrite_nil (mem : List α) (ofs : ℕ) : overwrite mem ofs [] = mem := by
  rw [overwrite, List.append_nil, List.length_nil, Nat.add_zero, List.take_append_drop]

@[simp] theorem memWrite_nil (mem : List α) (ofs : ℕ) : memWrite mem ofs [] = .ok mem := by
  rw [memWrite_eq (.inl rfl), overwrite_nil]

theorem length_overwrite {mem blk : List α} {ofs : ℕ}
    (h : blk = [] ∨ ofs + blk.length ≤ mem.length) : (overwrite mem ofs blk).length = mem.length := by
  simp only [overwrite, List.length_append, List.length_take, List.length_drop]
  rcases h with rfl | h
  · simp only [List.length_nil]
    omega
  · omega

theorem overwrite_append {mem : List α} {ofs : ℕ} (h : ofs ≤ mem.length) (b₁ b₂ : List α) :
    overwrite (overwrite mem ofs b₁) (ofs + b₁.length) b₂ = overwrite mem ofs (b₁ ++ b₂) := by
  have hlen : (mem.take ofs ++ b₁).length = ofs + b₁.length := by
    rw [List.length_append, List.length_take, Nat.min_eq_left h]
  have htake : (overwrite mem ofs b₁).take (ofs + b₁.length) = mem.take ofs ++ b₁ := by
    rw [overwrite, ← hlen, List.take_left]
  have hdrop : (overwrite mem ofs b₁).drop (ofs + b₁.length + b₂.length)
      = mem.drop (ofs + b₁.length + b₂.length) := by
    rw [overwrite, ← List.drop_drop, ← hlen, List.drop_left, hlen, List.drop_drop]
  rw [overwrite, htake, hdrop, overwrite, List.length_append, List.append_assoc (mem.take ofs),
    Nat.add_assoc]

theorem memWrite_bind {α β : Type} {mem blk : List α} {ofs : ℕ} (h : ofs + blk.length ≤ mem.length)
    (k : List α → Except Fault β) : (memWrite mem ofs blk >>= k) = k (overwrite mem ofs blk) := by
  rw [memWrite_eq (.inr h)]
  rfl

theorem memWrite_bind_memWrite {α β : Type} {mem b₁ b₂ : List α} {ofs : ℕ}
    (h : ofs + (b₁ ++ b₂).length ≤ mem.length) (k : List α → Except Fault β) :
    (memWrite mem ofs b₁ >>= fun m => memWrite m (ofs + b₁.length) b₂ >>= k)
      = k (overwrite mem ofs (b₁ ++ b₂)) := by
  rw [List.length_append] at h
  have h₁ : ofs + b₁.length ≤ mem.length := by omega
  have hlen := length_overwrite (.inr h₁ : b₁ = [] ∨ _)
  rw [memWrite_bind h₁, memWrite_bind (by omega), overwrite_append (by omega)]

theorem take_drop_overwrite {mem : List α} {ofs : ℕ} (h : ofs ≤ mem.length) (blk : List α) :
    ((overwrite mem ofs blk).drop ofs).take blk.length = blk := by
  have hlen : (mem.take ofs).length = ofs := by rw [List.length_take, Nat.min_eq_left h]
  have hdrop : (overwrite mem ofs blk).drop ofs = blk ++ mem.drop (ofs + blk.length) := by
    rw [overwrite, List.append_assoc]
    exact List.drop_left' hlen
  rw [hdrop, List.take_left]

theorem getElem?_overwrite {mem blk : List α} {ofs : ℕ}
    (h : blk = [] ∨ ofs + blk.length ≤ mem.length) (i : ℕ) :
    (overwrite mem ofs blk)[i]?
      = if ofs ≤ i ∧ i < ofs + blk.length then blk[i - ofs]? else mem[i]? := by
  rcases h with rfl | h
  · rw [if_neg (by simp), overwrite_nil]
  rw [overwrite, List.append_assoc, List.getElem?_append, List.length_take,
    Nat.min_eq_left (by omega)]
  split_ifs with hlt hin hin
  · omega
  · rw [List.getElem?_take_of_lt hlt]
  · rw [List.getElem?_append_left (by omega)]
  · rw [List.getElem?_append_right (by omega), List.getElem?_drop]
    congr 1
    omega

theorem getElem?_drop_take (mem : List α) (ofs n i : ℕ) :
    ((mem.drop ofs).take n)[i]? = if i < n then mem[ofs + i]? else none := by
  rw [List.getElem?_take, List.getElem?_drop]

theorem memcpy_spec (dst : List α) (dstOfs : ℕ) (src : List α) (srcOfs n : ℕ)
    (h : n = 0 ∨ srcOfs + n ≤ src.length ∧ dstOfs + n ≤ dst.length) :
    ∃ dst', memcpy dst dstOfs src srcOfs n = .ok dst' ∧ dst'.length = dst.length ∧
      ∀ i, dst'[i]? = if dstOfs ≤ i ∧ i < dstOfs + n then src[srcOfs + (i - dstOfs)]? else dst[i]? := by
  have hread : memRead src srcOfs n = .ok ((src.drop srcOfs).take n) := memRead_eq (by tauto)
  have hcpy : memcpy dst dstOfs src srcOfs n = memWrite dst dstOfs ((src.drop srcOfs).take n) := by
    simp only [memcpy, hread]
    rfl
  rcases h with rfl | ⟨hsrc, hdst⟩
  · refine ⟨dst, ?_, rfl, fun i => (if_neg (by omega)).symm⟩
    rw [hcpy, List.take_zero, memWrite_nil]
  · have hlen : ((src.drop srcOfs).take n).length = n := by
      rw [List.length_take, List.length_drop]
      omega
    have hwrite : (src.drop srcOfs).take n = [] ∨
        dstOfs + ((src.drop srcOfs).take n).length ≤ dst.length := .inr (by omega)
    refine ⟨_, hcpy.trans (memWrite_eq hwrite), length_overwrite hwrite, fun i => ?_⟩
    rw [getElem?_overwrite hwrite, hlen]
    split_ifs with hi
    · rw [getElem?_drop_take, if_pos (by omega)]
    · rfl

end SmartHAProxy
