/-
Bytes that are stored in a chain of blocks of one size.

A memory gives every block its cells.  A chain is a list of blocks, and its bytes
are those of its blocks, one after the other (`chainBytes`).  What is written
behind a prefix of them makes that prefix longer (`prefix_write`), provided that
the block is not one of those before.
-/
import Mathlib.Data.List.Flatten
import Mathlib.Data.List.Infix
import Mathlib.Algebra.Ring.Nat
import Mathlib.Algebra.Order.Group.Nat

namespace SmartHAProxy

open scoped List

variable {ι β : Type*}

def blockBytes (mem : ℕ → β) (size : ℕ) : List β := (List.range size).map mem

def chainBytes (data : ι → ℕ → β) (size : ℕ) (blocks : List ι) : List β :=
  blocks.flatMap fun b => blockBytes (data b) size

/-- `src` in the cells from `pos` on. -/
def writeCells (mem : ℕ → β) (pos : ℕ) (src : List β) : ℕ → β := fun i =>
  if pos ≤ i then (src[i - pos]?).getD (mem i) else mem i

variable {mem : ℕ → β} {data data' : ι → ℕ → β} {size : ℕ} {blocks : List ι}

@[simp] theorem length_blockBytes : (blockBytes mem size).length = size := by
  rw [blockBytes, List.length_map, List.length_range]

@[simp] theorem chainBytes_nil : chainBytes data size [] = [] := rfl

theorem chainBytes_cons (b : ι) (bs : List ι) :
    chainBytes data size (b :: bs) = blockBytes (data b) size ++ chainBytes data size bs := rfl

theorem chainBytes_append (bs bs' : List ι) :
    chainBytes data size (bs ++ bs') = chainBytes data size bs ++ chainBytes data size bs' :=
  List.flatMap_append

theorem length_chainBytes : (chainBytes data size blocks).length = size * blocks.length := by
  induction blocks with
  | nil => rfl
  | cons b bs ih =>
    rw [chainBytes_cons, List.length_append, length_blockBytes, ih, List.length_cons,
      Nat.mul_succ, Nat.add_comm]

theorem chainBytes_congr (h : ∀ b ∈ blocks, data b = data' b) :
    chainBytes data size blocks = chainBytes data' size blocks := by
  induction blocks with
  | nil => rfl
  | cons b bs ih =>
    rw [chainBytes_cons, chainBytes_cons, h b List.mem_cons_self,
      ih fun b' hb' => h b' (List.mem_cons_of_mem b hb')]

/-! ### Reading -/

theorem blockBytes_drop_take (start k : ℕ) :
    ((blockBytes mem size).drop start).take k
      = (List.range (min (size - start) k)).map fun i => mem (start + i) := by
  apply List.ext_getElem
  · rw [List.length_take, List.length_drop, length_blockBytes, List.length_map, List.length_range]
    exact min_comm _ _
  · intro i h₁ h₂
    simp [blockBytes]

/-! ### Writing -/

theorem prefix_writeCells {pos : ℕ} {src : List β} (hfit : pos + src.length ≤ size) :
    blockBytes mem pos ++ src <+: blockBytes (writeCells mem pos src) size := by
  rw [List.prefix_iff_eq_take]
  apply List.ext_getElem
  · simp only [List.length_append, List.length_take, length_blockBytes]
    omega
  · intro i h₁ h₂
    rw [List.getElem_take, List.getElem_append]
    simp only [List.length_append, length_blockBytes] at h₁
    split_ifs with hi
    · rw [length_blockBytes] at hi
      simp [blockBytes, writeCells, Nat.not_le.mpr hi]
    · rw [length_blockBytes] at hi
      have hpos : pos ≤ i := Nat.le_of_not_lt hi
      have hsrc : i - pos < src.length := by omega
      simp [blockBytes, writeCells, hpos, List.getElem?_eq_getElem hsrc]

/-- **What is written behind a prefix makes it longer.** -/
theorem prefix_write [DecidableEq ι] {pre post : List ι} {b : ι} {start : ℕ} {D src : List β}
    (hD : D <+: chainBytes data size (pre ++ b :: post))
    (hlen : D.length = size * pre.length + start) (hfit : start + src.length ≤ size)
    (hb : b ∉ pre) :
    D ++ src
      <+: chainBytes (Function.update data b (writeCells (data b) start src)) size
        (pre ++ b :: post) := by
  have hstart : start ≤ size := Nat.le_of_add_right_le hfit
  have hDeq : D = chainBytes data size pre ++ blockBytes (data b) start := by
    rw [List.prefix_iff_eq_take, chainBytes_append, chainBytes_cons, List.take_append,
      length_chainBytes, hlen, Nat.add_sub_cancel_left, List.take_of_length_le
        (by rw [length_chainBytes]; omega), List.take_append_of_le_length
        (by rwa [length_blockBytes])] at hD
    rw [hD, blockBytes, blockBytes, ← List.map_take, List.take_range, Nat.min_eq_left hstart]
  have hpre : chainBytes (Function.update data b (writeCells (data b) start src)) size pre
      = chainBytes data size pre := by
    apply chainBytes_congr
    intro b' hb'
    apply Function.update_of_ne
    rintro rfl
    exact hb hb'
  rw [chainBytes_append, chainBytes_cons, hpre, Function.update_self, hDeq, List.append_assoc]
  apply (List.prefix_append_right_inj _).mpr
  exact (prefix_writeCells hfit).trans (List.prefix_append _ _)

end SmartHAProxy
