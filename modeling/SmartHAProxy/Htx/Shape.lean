/-
Well-formed HTX messages, and what they contain.

The blocks of a message are the positions from its head to its tail.  The content
of a message is the list of its used blocks: the descriptor's word, that is the
type and the lengths, and the payload.

In a well-formed message the payloads are in front of the table, apart from each
other and from the two free rooms: from `head_addr` to `end_addr`, and from
`tail_addr` on.  Blocks without payload may be anywhere in it; if there are only
such blocks, the table begins at position 0.
-/
import Mathlib.Algebra.BigOperators.Group.List.Basic
import SmartHAProxy.Htx.Message

namespace SmartHAProxy

def HtxDesc.Live (d : HtxDesc) : Prop := d.used = true ∧ 0 < d.getBlksz

namespace HtxBuf

variable {htx htx' : HtxBuf} {h n p : ℕ}

/-! ### Content -/

/-- The positions of the blocks, unused ones among them. -/
def slots (htx : HtxBuf) : List ℕ := List.range' (htx.head.getD 0) htx.nbblks

def usedSlots (htx : HtxBuf) : List ℕ := htx.slots.filter fun p => (htx.blk p).used

def entry (htx : HtxBuf) (p : ℕ) : ℕ × CStr := ((htx.blk p).info, htx.payload p)

/-- **The content**: the used blocks in their order. -/
def content (htx : HtxBuf) : List (ℕ × CStr) := htx.usedSlots.map htx.entry

/-! ### Well-formed messages -/

/-- The blocks are at the positions from `h` on, below `n`. -/
structure Shape (htx : HtxBuf) (h n : ℕ) : Prop where
  head : htx.head = some h
  tail : htx.tail = posBefore n
  le : h ≤ n
  size : htx.size < 2 ^ 31
  align : 8 ∣ htx.size
  room : htx.headAddr ≤ htx.endAddr
  sep : htx.endAddr < htx.tailAddr ∨ htx.endAddr = 0 ∧ htx.tailAddr = 0 ∧ h = 0
  below : htx.tailAddr + 8 * n ≤ htx.size
  next : 8 * (n + 1) ≤ htx.size
  inside : ∀ p, h ≤ p → p < n → (htx.blk p).Live →
    (htx.blk p).addr + (htx.blk p).getBlksz ≤ htx.headAddr ∨
      htx.endAddr ≤ (htx.blk p).addr ∧ (htx.blk p).addr + (htx.blk p).getBlksz ≤ htx.tailAddr
  apart : ∀ p q, h ≤ p → p < n → h ≤ q → q < n → p ≠ q → (htx.blk p).Live → (htx.blk q).Live →
    CellsApart (htx.blk p).addr (htx.blk p).getBlksz (htx.blk q).addr (htx.blk q).getBlksz
  reach : ∀ p, h ≤ p → p < n → (htx.blk p).used = true → (htx.blk p).addr ≤ htx.size
  zero : ∀ p, h ≤ p → p < n → (htx.blk p).used = false → (htx.blk p).getBlksz = 0
  data : htx.data = (htx.usedSlots.map fun p => (htx.blk p).getBlksz).sum
  room_le : htx.data + htx.endAddr ≤ htx.headAddr + htx.tailAddr

structure Blank (htx : HtxBuf) : Prop where
  head : htx.head = none
  tail : htx.tail = none
  size : htx.size < 2 ^ 31
  align : 8 ∣ htx.size
  data : htx.data = 0
  tailAddr : htx.tailAddr = 0
  headAddr : htx.headAddr = 0
  endAddr : htx.endAddr = 0

/-- **Well-formed messages.** -/
def Wf (htx : HtxBuf) : Prop := htx.Blank ∨ ∃ h n, h < n ∧ htx.Shape h n

/-! ### Positions -/

@[simp] theorem posBefore_succ (n : ℕ) : posBefore (n + 1) = some n := if_neg (Nat.succ_ne_zero n)

theorem posBefore_elim (n : ℕ) : (posBefore n).elim 0 (· + 1) = n := by
  cases n <;> rfl

theorem slots_eq (hh : htx.head = some h) (ht : htx.tail = posBefore n) :
    htx.slots = List.range' h (n - h) := by
  rw [slots, nbblks, tailSucc, hh, ht, posBefore_elim]
  rfl

theorem slots_blank (hh : htx.head = none) : htx.slots = [] := by
  rw [slots, nbblks, hh]
  rfl

theorem Shape.slots (hs : htx.Shape h n) : htx.slots = List.range' h (n - h) :=
  slots_eq hs.head hs.tail

theorem Shape.nbblks (hs : htx.Shape h n) : htx.nbblks = n - h := by
  rw [HtxBuf.nbblks, tailSucc, hs.head, hs.tail, posBefore_elim]
  rfl

theorem Shape.tailSucc (hs : htx.Shape h n) : htx.tailSucc = n := by
  rw [HtxBuf.tailSucc, hs.tail, posBefore_elim]

theorem Shape.mem_slots (hs : htx.Shape h n) : p ∈ htx.slots ↔ h ≤ p ∧ p < n := by
  have hle := hs.le
  rw [hs.slots, List.mem_range'_1]
  omega

theorem mem_usedSlots : p ∈ htx.usedSlots ↔ p ∈ htx.slots ∧ (htx.blk p).used = true :=
  List.mem_filter

theorem Shape.mem_usedSlots (hs : htx.Shape h n) :
    p ∈ htx.usedSlots ↔ (h ≤ p ∧ p < n) ∧ (htx.blk p).used = true := by
  rw [HtxBuf.mem_usedSlots, hs.mem_slots]

theorem slots_pairwise (htx : HtxBuf) : htx.slots.Pairwise (· < ·) := List.pairwise_lt_range'

theorem usedSlots_pairwise (htx : HtxBuf) : htx.usedSlots.Pairwise (· < ·) :=
  (slots_pairwise htx).filter _

theorem usedSlots_nodup (htx : HtxBuf) : htx.usedSlots.Nodup :=
  (usedSlots_pairwise htx).imp fun hlt => Nat.ne_of_lt hlt

theorem length_usedSlots_le (htx : HtxBuf) : htx.usedSlots.length ≤ htx.nbblks := by
  refine Nat.le_trans (List.length_filter_le ..) ?_
  rw [slots, List.length_range']

theorem content_blank (hh : htx.head = none) : htx.content = [] := by
  rw [content, usedSlots, slots_blank hh]
  rfl

theorem length_payload (htx : HtxBuf) (p : ℕ) : (htx.payload p).length = (htx.blk p).getBlksz :=
  length_readAt _ _ _

theorem content_sizes (htx : HtxBuf) :
    (htx.content.map fun e => e.2.length) = htx.usedSlots.map fun p => (htx.blk p).getBlksz := by
  rw [content, List.map_map]
  exact List.map_congr_left fun p _ => length_payload htx p

/-! ### Space -/

theorem Shape.usedSpace (hs : htx.Shape h n) : htx.usedSpace = htx.data + 8 * (n - h) := by
  rw [HtxBuf.usedSpace, metaSpace, hs.nbblks, hs.tail]
  cases n with
  | zero => rw [Nat.zero_sub]; rfl
  | succ n => rw [posBefore_succ, if_neg (Option.some_ne_none n), Nat.mul_comm]

theorem Shape.usedSpace_le (hs : htx.Shape h n) : htx.data + 8 * (n - h) ≤ htx.size := by
  have hroom := hs.room
  have hle := hs.room_le
  have hbelow := hs.below
  omega

theorem Shape.freeSpace (hs : htx.Shape h n) :
    htx.freeSpace = htx.size - (htx.data + 8 * (n - h)) := by
  have hsize := hs.size
  rw [HtxBuf.freeSpace, hs.usedSpace, sub32_eq hs.usedSpace_le (by omega)]

theorem posToAddr_eq {pos : ℕ} (hle : 8 * (pos + 1) ≤ htx.size) (hsize : htx.size < 2 ^ 31) :
    htx.posToAddr pos = htx.size - 8 * (pos + 1) := by
  rw [posToAddr, Nat.mul_comm, sub32_eq hle (by omega)]

theorem next_of_pos {size k n : ℕ} (halign : 8 ∣ size) (hk : 0 < k) (hle : k + 8 * n ≤ size) :
    8 * (n + 1) ≤ size := by
  obtain ⟨d, rfl⟩ := halign
  omega

end HtxBuf

end SmartHAProxy
