/-
The ring buffers refine queues of bytes.

The system is a family of buffers of any sizes and the calls of the functions
of buf.h on them, in any order.  The abstract system has queues in place of the
buffers: a queue is a list of bytes and a capacity.  `bufs_refine` says that
both give the same bytes and the same return values, and that no access leaves
a storage area, over every run whose calls respect the preconditions and avoid
two defects:

* `b_slow_realign` with output data that wraps (see `RealignsOutput`): its two
  blocks are the wrong way round, as many bytes are taken from the head as stand
  at the origin.  `b_slow_realign_ofs` keeps the content in all cases,
* a copying `b_xfer` from a buffer whose head stands at the end of its area,
  which is where `b_slow_realign_ofs` leaves it when it is called with the size
  of the buffer.  `b_xfer` takes `b_head()` for the first block, the only place
  where the head is not brought back into the area first.
-/
import SmartHAProxy.Buf.Insert
import SmartHAProxy.Lib.Run

namespace SmartHAProxy

variable {b : Buffer} {swap : List UInt8}

theorem bSlowRealignOfs_content (h : b.Valid) {swap : List UInt8} {ofs : ℕ}
    (hswap : bSize b ≤ swap.length) (hofs : ofs ≤ bSize b) :
    ∃ b', bSlowRealignOfs b swap ofs = .ok b' ∧ bSize b' = bSize b ∧ b'.Valid ∧
      b'.content = b.content := by
  have hhead := h.head_le
  have hdata := h.data_le
  have hsize : bSize b = b.area.length := rfl
  -- the content is copied to the temporary area
  set n₂ := if b.head + b.data ≥ bSize b then bTailOfs b else 0 with hn₂
  set n₁ := if b.head + b.data ≥ bSize b then b.data - n₂ else b.data with hn₁
  have hn : n₁ + n₂ = b.data ∧ (n₂ = 0 ∧ b.head + b.data ≤ bSize b ∨ b.head + n₁ = bSize b) := by
    have := bPeekOfs_cases b b.data
    have : bTailOfs b = bPeekOfs b b.data := rfl
    rw [hn₁, hn₂]
    split_ifs <;> omega
  obtain ⟨swap₁, hrun₁, hlen₁, hbytes₁⟩ := memcpy_spec swap 0 b.area b.head n₁ (by omega)
  obtain ⟨swap₂, hrun₂, hlen₂, hbytes₂⟩ := memcpy_spec swap₁ n₁ b.area 0 n₂ (by omega)
  have hout (k : ℕ) (hk : k < b.data) : swap₂[k]? = b.area[bPeekOfs b k]? := by
    have := bPeekOfs_cases b k
    rw [hbytes₂, hbytes₁]
    split_ifs <;> first | omega | (congr 1; omega)
  -- and copied back
  set m₁ := if b.data > bSize b - ofs then bSize b - ofs else b.data with hm₁
  set m₂ := if b.data > bSize b - ofs then b.data - m₁ else 0 with hm₂
  have hm : m₁ + m₂ = b.data ∧ (m₂ = 0 ∧ ofs + b.data ≤ bSize b ∨ ofs + m₁ = bSize b) := by
    rw [hm₂, hm₁]
    split_ifs <;> omega
  obtain ⟨area₁, hrun₃, hlen₃, hbytes₃⟩ := memcpy_spec b.area ofs swap₂ 0 m₁ (by omega)
  obtain ⟨area₂, hrun₄, hlen₄, hbytes₄⟩ := memcpy_spec area₁ 0 swap₂ m₁ m₂ (by omega)
  have hin (k : ℕ) (hk : k < b.data) : area₂[ringPos (bSize b) ofs k]? = swap₂[k]? := by
    have := ringPos_cases (bSize b) ofs k
    rw [hbytes₄, hbytes₃]
    split_ifs <;> first | omega | (congr 1; omega)
  have hsize' : bSize { b with area := area₂, head := ofs } = bSize b := hlen₄.trans hlen₃
  have hv : Buffer.Valid { b with area := area₂, head := ofs } := ⟨by rwa [hsize'], by rwa [hsize']⟩
  refine ⟨{ b with area := area₂, head := ofs }, ?_, hsize', hv,
    content_eq_of_peek hv h.length_content fun k hk => ?_⟩
  · simp only [bSlowRealignOfs, ← hn₂, ← hn₁, ← hm₁, ← hm₂, hrun₁, hrun₂, hrun₃, hrun₄, bind,
      Except.bind]
    rfl
  · rw [getElem?_content h, if_pos hk, ← hout k hk, ← hin k hk]
    show area₂[ringPos _ ofs k]? = _
    rw [hsize']

/-- The condition under which `b_slow_realign` keeps the content. -/
def RealignsOutput (b : Buffer) (output : ℕ) : Prop :=
  output ≤ bSize b - b.head ∨ output = 2 * (bSize b - b.head)

instance decidableRealignsOutput (b : Buffer) (output : ℕ) : Decidable (RealignsOutput b output) :=
  inferInstanceAs (Decidable (_ ∨ _))

theorem realign_output (h : b.Valid) {output : ℕ} (hswap : bSize b ≤ swap.length)
    (hout : output ≤ b.data) (hgood : RealignsOutput b output) :
    let block2 := if output > bSize b - b.head then bSize b - b.head else 0
    let block1 := if output > bSize b - b.head then output - block2 else output
    ∃ swap₁ swap₂, memcpy swap (bSize b - output) b.area b.head block1 = .ok swap₁ ∧
      memcpy swap₁ (bSize b - block2) b.area 0 block2 = .ok swap₂ ∧
      swap₂.length = swap.length ∧
      ∀ k < output, swap₂[bSize b - output + k]? = b.area[bPeekOfs b k]? := by
  intro block2 block1
  have hhead := h.head_le
  have hdata := h.data_le
  have hsize : bSize b = b.area.length := rfl
  have hn : block1 + block2 = output ∧ (block2 = 0 ∧ b.head + output ≤ bSize b ∨
      block1 = block2 ∧ b.head + block1 = bSize b) := by
    simp only [block1, block2, RealignsOutput] at *
    split_ifs <;> omega
  obtain ⟨swap₁, hrun₁, hlen₁, hbytes₁⟩ :=
    memcpy_spec swap (bSize b - output) b.area b.head block1 (by omega)
  obtain ⟨swap₂, hrun₂, hlen₂, hbytes₂⟩ :=
    memcpy_spec swap₁ (bSize b - block2) b.area 0 block2 (by omega)
  refine ⟨swap₁, swap₂, hrun₁, hrun₂, hlen₂.trans hlen₁, fun k hk => ?_⟩
  clear_value block1 block2
  have := bPeekOfs_cases b k
  rw [hbytes₂, hbytes₁]
  split_ifs <;> first | omega | (congr 1; omega)

theorem realign_input (h : b.Valid) {output : ℕ} (hswap : bSize b ≤ swap.length)
    (hout : output ≤ b.data) :
    let input := b.data - output
    let block2 := if input > bTailOfs b then bTailOfs b else 0
    let block1 := if input > bTailOfs b then input - block2 else input
    ∃ swap₁ swap₂, memcpy swap 0 b.area (bPeekOfs b output) block1 = .ok swap₁ ∧
      memcpy swap₁ block1 b.area 0 block2 = .ok swap₂ ∧ swap₂.length = swap.length ∧
      (∀ k < input, swap₂[k]? = b.area[bPeekOfs b (output + k)]?) ∧
      ∀ k ≥ input, swap₂[k]? = swap[k]? := by
  intro input block2 block1
  have hhead := h.head_le
  have hdata := h.data_le
  have hsize : bSize b = b.area.length := rfl
  have htail : bTailOfs b = bPeekOfs b b.data := rfl
  have hpeek := bPeekOfs_cases b output
  have hinput : input = b.data - output := rfl
  have hn : block1 + block2 = input ∧
      (block2 = 0 ∧ (input = 0 ∨ bPeekOfs b output + block1 ≤ bSize b) ∨
        b.head + output + block1 = bSize b) := by
    have := bPeekOfs_cases b b.data
    simp only [block1, block2]
    split_ifs <;> omega
  obtain ⟨swap₁, hrun₁, hlen₁, hbytes₁⟩ :=
    memcpy_spec swap 0 b.area (bPeekOfs b output) block1 (by omega)
  obtain ⟨swap₂, hrun₂, hlen₂, hbytes₂⟩ := memcpy_spec swap₁ block1 b.area 0 block2 (by omega)
  clear_value block1 block2 input
  refine ⟨swap₁, swap₂, hrun₁, hrun₂, hlen₂.trans hlen₁, fun k hk => ?_, fun k hk => ?_⟩
  · have := bPeekOfs_cases b (output + k)
    rw [hbytes₂, hbytes₁]
    split_ifs <;> first | omega | (congr 1; omega)
  · rw [hbytes₂, hbytes₁, if_neg (by omega), if_neg (by omega)]

/-- `b_slow_realign` keeps the content if its condition holds. -/
theorem bSlowRealign_content (h : b.Valid) {output : ℕ} (hswap : bSize b ≤ swap.length)
    (hout : output ≤ b.data) (hgood : RealignsOutput b output) :
    ∃ b', bSlowRealign b swap output = .ok b' ∧ bSize b' = bSize b ∧ b'.Valid ∧
      b'.content = b.content := by
  have hdata := h.data_le
  have hsize : bSize b = b.area.length := rfl
  obtain ⟨swap₁, swap₂, hrun₁, hrun₂, hlen₂, houtput⟩ := realign_output h hswap hout hgood
  obtain ⟨swap₃, swap₄, hrun₃, hrun₄, hlen₄, hinput, hkept⟩ :=
    realign_input h (by omega : bSize b ≤ swap₂.length) hout
  obtain ⟨area₁, hrun₅, hlen₅, hbytes₅⟩ := memcpy_spec b.area 0 swap₄ 0 (b.data - output) (by omega)
  obtain ⟨area₂, hrun₆, hlen₆, hbytes₆⟩ :=
    memcpy_spec area₁ (bSize b - output) swap₄ (bSize b - output) output (by omega)
  set head' := if output ≠ 0 then bSize b - output else 0 with hhead'
  have hhead : head' = bSize b - output ∨ output = 0 ∧ head' = 0 := by
    rw [hhead']
    split_ifs <;> omega
  set b' : Buffer := { b with area := area₂, head := head' } with hb'
  have hsize' : bSize b' = bSize b := hlen₆.trans hlen₅
  have hdata' : b'.data = b.data := rfl
  have hhead₁ : b'.head = head' := rfl
  have hv : b'.Valid := ⟨by omega, by omega⟩
  refine ⟨b', ?_, hsize', hv, content_eq_of_peek hv h.length_content fun k hk => ?_⟩
  · simp only [bSlowRealign, hrun₁, hrun₂, hrun₃, hrun₄, hrun₅, hrun₆, bind, Except.bind]
    rfl
  rw [getElem?_content h, if_pos hk]
  have hpeek := bPeekOfs_cases b' k
  show area₂[bPeekOfs b' k]? = _
  rcases Nat.lt_or_ge k output with hlt | hge
  · -- a byte of the output part
    rw [hbytes₆, if_pos (by omega),
      show bSize b - output + (bPeekOfs b' k - (bSize b - output)) = bSize b - output + k by omega,
      hkept _ (by omega), houtput k hlt]
  · obtain ⟨j, rfl⟩ := Nat.exists_eq_add_of_le hge
    have hj : bPeekOfs b' (output + j) = j := by omega
    rw [hj, hbytes₆, if_neg (by omega), hbytes₅, if_pos (by omega), Nat.sub_zero, Nat.zero_add,
      hinput j (by omega)]

/-! ### Queues -/

structure ByteQueue where
  size : ℕ
  bytes : List UInt8
  deriving DecidableEq, Repr

namespace ByteQueue

def room (q : ByteQueue) : ℕ := q.size - q.bytes.length

/-- As much of a block as there is room for is appended. -/
def put (q : ByteQueue) (blk : List UInt8) : ByteQueue :=
  { q with bytes := q.bytes ++ blk.take q.room }

def del (q : ByteQueue) (n : ℕ) : ByteQueue := { q with bytes := q.bytes.drop n }

/-- A block that fits is inserted, any other one is dropped. -/
def insert (q : ByteQueue) (off : ℕ) (blk : List UInt8) : ByteQueue :=
  if blk.length ≤ q.room then { q with bytes := q.bytes.take off ++ blk ++ q.bytes.drop off } else q

/-- The first `count` bytes of the second queue are appended to the first one.
All that there is goes to an empty queue by an exchange of the queues. -/
def xfer (dst src : ByteQueue) (count : ℕ) : ByteQueue × ByteQueue :=
  if src.bytes ≠ [] ∧ src.bytes.length ≤ count ∧ dst.bytes = [] then (src, dst)
  else ({ dst with bytes := dst.bytes ++ src.bytes.take count }, src.del count)

end ByteQueue

def Buffer.queue (b : Buffer) : ByteQueue := ⟨bSize b, b.content⟩

/-! ### Calls -/

variable {β : Type*}

/-- A call of one of the functions of buf.h on a family of buffers. -/
inductive BufCall (β : Type*)
  | putchr (i : β) (c : UInt8)
  | putblk (i : β) (blk : List UInt8)
  | del (i : β) (n : ℕ)
  | xfer (dst src : β) (count : ℕ)
  | insertBlk (i : β) (off : ℕ) (blk : List UInt8)
  | getblk (i : β) (len offset : ℕ)
  | slowRealign (i : β) (swap : List UInt8) (output : ℕ)
  | slowRealignOfs (i : β) (swap : List UInt8) (ofs : ℕ)

/-- The buffers (or queues), and what the last call has returned: a number, and
the bytes that `b_getblk` delivers.  A function without a result returns 0. -/
structure BufState (β γ : Type*) where
  bufs : β → γ
  ret : ℕ
  blk : List UInt8

def BufCall.Pre (s : BufState β Buffer) : BufCall β → Prop
  | .putchr _ _ | .putblk _ _ => True
  | .del i n => n ≤ (s.bufs i).data
  | .xfer dst src count => dst ≠ src ∧ count ≤ bRoom (s.bufs dst)
  | .insertBlk i off _ => off ≤ (s.bufs i).data
  | .getblk i len offset => offset + len ≤ (s.bufs i).data
  | .slowRealign i swap output => output ≤ (s.bufs i).data ∧ bSize (s.bufs i) ≤ swap.length
  | .slowRealignOfs i swap ofs => ofs ≤ bSize (s.bufs i) ∧ bSize (s.bufs i) ≤ swap.length

/-- The call does not meet one of the two defects. -/
def BufCall.Sound (s : BufState β Buffer) : BufCall β → Prop
  | .slowRealign i _ output => RealignsOutput (s.bufs i) output
  | .xfer dst src count =>
    (s.bufs src).head < bSize (s.bufs src) ∨ count = 0 ∨ (s.bufs src).data = 0 ∨
      (s.bufs src).data ≤ count ∧ (s.bufs dst).data = 0
  | _ => True

variable [DecidableEq β]

instance decidablePre (s : BufState β Buffer) : DecidablePred (BufCall.Pre s)
  | .putchr _ _ | .putblk _ _ => instDecidableTrue
  | .del _ _ | .insertBlk _ _ _ | .getblk _ _ _ => inferInstanceAs (Decidable (_ ≤ _))
  | .xfer _ _ _ | .slowRealign _ _ _ | .slowRealignOfs _ _ _ => inferInstanceAs (Decidable (_ ∧ _))

instance decidableSound (s : BufState β Buffer) : DecidablePred (BufCall.Sound s)
  | .xfer _ _ _ => inferInstanceAs (Decidable (_ ∨ _))
  | .slowRealign i _ output => decidableRealignsOutput (s.bufs i) output
  | .putchr _ _ | .putblk _ _ | .del _ _ | .insertBlk _ _ _ | .getblk _ _ _
  | .slowRealignOfs _ _ _ => instDecidableTrue

def BufCall.run (s : BufState β Buffer) : BufCall β → Except Fault (BufState β Buffer)
  | .putchr i c =>
    (bPutchr (s.bufs i) c).map fun b => ⟨Function.update s.bufs i b, 0, []⟩
  | .putblk i blk =>
    (bPutblk (s.bufs i) blk).map fun r => ⟨Function.update s.bufs i r.1, r.2, []⟩
  | .del i n => .ok ⟨Function.update s.bufs i (bDel (s.bufs i) n), 0, []⟩
  | .xfer dst src count =>
    (bXfer (s.bufs dst) (s.bufs src) count).map fun r =>
      ⟨Function.update (Function.update s.bufs dst r.1) src r.2.1, r.2.2, []⟩
  | .insertBlk i off blk =>
    (bInsertBlk (s.bufs i) off blk).map fun r => ⟨Function.update s.bufs i r.1, r.2, []⟩
  | .getblk i len offset =>
    (bGetblk (s.bufs i) len offset).map fun r => ⟨s.bufs, r.1, r.2⟩
  | .slowRealign i swap output =>
    (bSlowRealign (s.bufs i) swap output).map fun b => ⟨Function.update s.bufs i b, 0, []⟩
  | .slowRealignOfs i swap ofs =>
    (bSlowRealignOfs (s.bufs i) swap ofs).map fun b => ⟨Function.update s.bufs i b, 0, []⟩

/-- The same call on the queues; the two realign functions do nothing there. -/
def BufCall.spec (s : BufState β ByteQueue) : BufCall β → BufState β ByteQueue
  | .putchr i c => ⟨Function.update s.bufs i ((s.bufs i).put [c]), 0, []⟩
  | .putblk i blk =>
    ⟨Function.update s.bufs i ((s.bufs i).put blk), min blk.length (s.bufs i).room, []⟩
  | .del i n => ⟨Function.update s.bufs i ((s.bufs i).del n), 0, []⟩
  | .xfer dst src count =>
    let r := (s.bufs dst).xfer (s.bufs src) count
    ⟨Function.update (Function.update s.bufs dst r.1) src r.2,
      min (s.bufs src).bytes.length count, []⟩
  | .insertBlk i off blk =>
    ⟨Function.update s.bufs i ((s.bufs i).insert off blk),
      if blk.length ≤ (s.bufs i).room then blk.length else 0, []⟩
  | .getblk i len offset => ⟨s.bufs, len, ((s.bufs i).bytes.drop offset).take len⟩
  | .slowRealign _ _ _ | .slowRealignOfs _ _ _ => ⟨s.bufs, 0, []⟩

/-! ### The refinement -/

def BufState.Valid (s : BufState β Buffer) : Prop := ∀ i, (s.bufs i).Valid

/-- The queues that the buffers implement. -/
def BufState.queues (s : BufState β Buffer) : BufState β ByteQueue :=
  ⟨fun i => (s.bufs i).queue, s.ret, s.blk⟩

variable {s : BufState β Buffer}

theorem Buffer.Valid.room_queue {b : Buffer} (h : b.Valid) : b.queue.room = bRoom b := by
  rw [ByteQueue.room, Buffer.queue, h.length_content, bRoom]

theorem valid_update (h : s.Valid) (i : β) {b : Buffer} (hb : b.Valid) (ret : ℕ) (blk : List UInt8) :
    BufState.Valid ⟨Function.update s.bufs i b, ret, blk⟩ := by
  intro j
  show (Function.update s.bufs i b j).Valid
  rcases eq_or_ne j i with rfl | hne
  · rwa [Function.update_self]
  · rw [Function.update_of_ne hne]
    exact h j

theorem queues_update (i : β) (b : Buffer) (ret : ℕ) (blk : List UInt8) :
    BufState.queues ⟨Function.update s.bufs i b, ret, blk⟩
      = ⟨Function.update s.queues.bufs i b.queue, ret, blk⟩ := by
  rw [BufState.queues, BufState.mk.injEq]
  refine ⟨?_, rfl, rfl⟩
  funext j
  show (Function.update s.bufs i b j).queue = _
  rcases eq_or_ne j i with rfl | hne
  · rw [Function.update_self, Function.update_self]
  · rw [Function.update_of_ne hne, Function.update_of_ne hne]
    rfl

theorem refines_one (h : s.Valid) {i : β} {b : Buffer} (hb : b.Valid)
    (hsize : bSize b = bSize (s.bufs i)) {q : ByteQueue} (hq : q.size = bSize (s.bufs i))
    (hcontent : b.content = q.bytes) (ret : ℕ) (blk : List UInt8) :
    BufState.Valid ⟨Function.update s.bufs i b, ret, blk⟩ ∧
      BufState.queues ⟨Function.update s.bufs i b, ret, blk⟩
        = ⟨Function.update s.queues.bufs i q, ret, blk⟩ := by
  refine ⟨valid_update h i hb ret blk, ?_⟩
  have hqueue : b.queue = q := by
    rw [Buffer.queue, hsize, hcontent, ← hq]
  rw [queues_update, hqueue]

theorem queues_realign {i : β} {b : Buffer} (hsize : bSize b = bSize (s.bufs i))
    (hcontent : b.content = (s.bufs i).content) :
    BufState.queues ⟨Function.update s.bufs i b, 0, []⟩ = ⟨s.queues.bufs, 0, []⟩ := by
  have hqueue : b.queue = s.queues.bufs i := by
    rw [Buffer.queue, hsize, hcontent]
    rfl
  rw [queues_update, hqueue, Function.update_eq_self]

/-- `b_xfer` between two buffers. -/
theorem bXfer_refines {dst src : Buffer} (hd : dst.Valid) (hs : src.Valid) {count : ℕ}
    (hroom : count ≤ bRoom dst)
    (hsound : src.head < bSize src ∨ count = 0 ∨ src.data = 0 ∨ src.data ≤ count ∧ dst.data = 0) :
    ∃ dst' src', bXfer dst src count = .ok (dst', src', min src.content.length count) ∧
      dst'.Valid ∧ src'.Valid ∧ (dst'.queue, src'.queue) = dst.queue.xfer src.queue count := by
  have hnil : src.content = [] ↔ src.data = 0 := by
    rw [← List.length_eq_zero_iff, hs.length_content]
  have hnil' : dst.content = [] ↔ dst.data = 0 := by
    rw [← List.length_eq_zero_iff, hd.length_content]
  have hqueue : ∀ b : Buffer, b.queue = ⟨bSize b, b.content⟩ := fun _ => rfl
  rw [hs.length_content]
  by_cases hnone : count = 0 ∨ src.data = 0
  · refine ⟨dst, src, ?_, hd, hs, ?_⟩
    · rw [bXfer, if_pos hnone, show min src.data count = 0 by omega]
      rfl
    · rw [ByteQueue.xfer, if_neg]
      · rcases hnone with rfl | hdata
        · simp [hqueue, ByteQueue.del]
        · simp [hqueue, ByteQueue.del, hnil.mpr hdata]
      · simp only [hqueue, ne_eq, hnil, hnil', hs.length_content]
        omega
  by_cases hall : src.data ≤ count ∧ dst.data = 0
  · refine ⟨src, dst, ?_, hs, hd, ?_⟩
    · rw [bXfer, if_neg hnone, if_pos hall, show min src.data count = src.data by omega]
      rfl
    · rw [ByteQueue.xfer, if_pos]
      simp only [hqueue, ne_eq, hnil, hnil', hs.length_content]
      omega
  · obtain ⟨dst', src', hrun, hd', hs', hdsize, hssize, hdcontent, hscontent⟩ :=
      bXfer_copy hd hs hroom (by omega) hnone hall
    refine ⟨dst', src', hrun, hd', hs', ?_⟩
    rw [ByteQueue.xfer, if_neg]
    · simp only [hqueue, ByteQueue.del, hdsize, hssize, hdcontent, hscontent]
    · simp only [hqueue, ne_eq, hnil, hnil', hs.length_content]
      omega

/-- **One call.**  It meets no fault, keeps the buffers valid and does what it does
on queues. -/
theorem BufCall.run_refines (h : s.Valid) (call : BufCall β) (hpre : call.Pre s)
    (hsound : call.Sound s) :
    ∃ t, call.run s = .ok t ∧ t.Valid ∧ t.queues = call.spec s.queues := by
  have hroom (i : β) : (s.queues.bufs i).room = bRoom (s.bufs i) := (h i).room_queue
  cases call with
  | putchr i c =>
    obtain ⟨b, hrun, hsize, hv, hcontent⟩ := bPutchr_content (h i) c
    have hput : b.content = ((s.queues.bufs i).put [c]).bytes := by
      show b.content = (s.bufs i).content ++ [c].take (s.queues.bufs i).room
      rw [hcontent, hroom, bRoom, (h i).length_content]
      split_ifs with hlt
      · rw [List.take_of_length_le (by simp only [List.length_singleton]; omega)]
      · rw [show bSize (s.bufs i) - (s.bufs i).data = 0 by omega, List.take_zero, List.append_nil]
    exact ⟨_, by rw [BufCall.run, hrun]; rfl, refines_one h hv hsize rfl hput 0 []⟩
  | putblk i blk =>
    obtain ⟨b, hrun, hsize, hv, hcontent⟩ := bPutblk_content (h i) blk
    have hput : b.content = ((s.queues.bufs i).put blk).bytes := by
      show b.content = (s.bufs i).content ++ blk.take (s.queues.bufs i).room
      rw [hcontent, hroom]
    refine ⟨_, by rw [BufCall.run, hrun]; rfl, ?_⟩
    rw [BufCall.spec, hroom]
    exact refines_one h hv hsize rfl hput _ []
  | del i n =>
    obtain ⟨hsize, hv, hcontent⟩ := bDel_content (h i) hpre
    exact ⟨_, rfl, refines_one h hv hsize rfl hcontent 0 []⟩
  | xfer dst src count =>
    obtain ⟨dst', src', hrun, hd, hs, hqueues⟩ := bXfer_refines (h dst) (h src) hpre.2 hsound
    refine ⟨_, by rw [BufCall.run, hrun]; rfl,
      valid_update (valid_update h dst hd 0 []) src hs _ [], ?_⟩
    have hspec : (s.queues.bufs dst).xfer (s.queues.bufs src) count = (dst'.queue, src'.queue) :=
      hqueues.symm
    have hdst := queues_update (s := s) dst dst' 0 []
    rw [BufCall.spec, hspec]
    rw [queues_update (s := ⟨Function.update s.bufs dst dst', 0, []⟩), hdst]
    rfl
  | insertBlk i off blk =>
    obtain ⟨b, hsize, hv, hrest⟩ := bInsertBlk_content (h i) hpre blk
    rw [BufCall.spec, ByteQueue.insert, hroom]
    split_ifs at hrest ⊢ with hfit
    · obtain ⟨hrun, hcontent⟩ := hrest
      exact ⟨_, by rw [BufCall.run, hrun]; rfl, refines_one h hv hsize rfl hcontent _ []⟩
    · obtain ⟨hrun, hcontent⟩ := hrest
      exact ⟨_, by rw [BufCall.run, hrun]; rfl, refines_one h hv hsize rfl hcontent _ []⟩
  | getblk i len offset =>
    have hrun := bGetblk_content (h i) hpre
    refine ⟨⟨s.bufs, len, _⟩, by rw [BufCall.run, hrun]; rfl, h, rfl⟩
  | slowRealign i swap output =>
    obtain ⟨b, hrun, hsize, hv, hcontent⟩ := bSlowRealign_content (h i) hpre.2 hpre.1 hsound
    refine ⟨_, by rw [BufCall.run, hrun]; rfl, valid_update h i hv 0 [], ?_⟩
    exact queues_realign hsize hcontent
  | slowRealignOfs i swap ofs =>
    obtain ⟨b, hrun, hsize, hv, hcontent⟩ := bSlowRealignOfs_content (h i) hpre.2 hpre.1
    refine ⟨_, by rw [BufCall.run, hrun]; rfl, valid_update h i hv 0 [], ?_⟩
    exact queues_realign hsize hcontent

/-- **Ring buffers refine byte queues.**  Over every run of calls that respect the
preconditions and do not meet one of the two defects, from any valid buffers,
no access leaves a storage area, and bytes and return values are those of the
queues. -/
theorem bufs_refine {s₀ : BufState β Buffer} (h₀ : s₀.Valid) {calls : List (BufCall β)}
    (hcalls : StepsMeet BufCall.run (fun s call => call.Pre s ∧ call.Sound s) s₀ calls) :
    ∃ t, calls.foldlM BufCall.run s₀ = .ok t ∧ t.Valid ∧
      t.queues = calls.foldl BufCall.spec s₀.queues :=
  foldlM_refines (fun _ call hs hcall => BufCall.run_refines hs call hcall.1 hcall.2) h₀ hcalls

def emptyBufs : BufState Bool Buffer := ⟨fun _ => ⟨[0, 0, 0, 0], 0, 0⟩, 0, []⟩

/-- The first buffer is filled so that its content wraps after two bytes, and
realigned with an amount of output data. -/
def wrapAndRealign (output : ℕ) : List (BufCall Bool) :=
  [.putblk false (bytes "abcd"), .del false 2, .putblk false (bytes "ef"),
    .slowRealign false [0, 0, 0, 0] output]

/-- Two bytes of output do not wrap. -/
theorem bufs_refine_output_two :
    ∃ t, (wrapAndRealign 2).foldlM BufCall.run emptyBufs = .ok t ∧ t.Valid ∧
      t.queues = (wrapAndRealign 2).foldl BufCall.spec emptyBufs.queues := by
  refine bufs_refine (fun _ => ⟨Nat.zero_le _, Nat.zero_le _⟩) ?_
  refine stepsMeet_cons (by decide) fun s₁ h₁ => ?_
  cases h₁
  refine stepsMeet_cons (by decide) fun s₂ h₂ => ?_
  cases h₂
  refine stepsMeet_cons (by decide) fun s₃ h₃ => ?_
  cases h₃
  exact stepsMeet_cons (by decide) fun s₄ _ => stepsMeet_nil _ _ s₄

/-- A byte is copied from a buffer that has been realigned to the end of its area. -/
def realignAndXfer : List (BufCall Bool) :=
  [.putblk false (bytes "ab"), .slowRealignOfs false [0, 0, 0, 0] 4, .xfer true false 1]

/-- Three bytes of output wrap, and the content is corrupted.  And after a realign
at the end of its area, a buffer cannot be copied from. -/
theorem not_bufs_refine_output_three :
    (StepsMeet BufCall.run (fun s call => call.Pre s) emptyBufs (wrapAndRealign 3) ∧
      ∃ t, (wrapAndRealign 3).foldlM BufCall.run emptyBufs = .ok t ∧
        (t.bufs false).content = bytes "ceff" ∧
        (((wrapAndRealign 3).foldl BufCall.spec emptyBufs.queues).bufs false).bytes = bytes "cdef") ∧
    StepsMeet BufCall.run (fun s call => call.Pre s) emptyBufs realignAndXfer ∧
      realignAndXfer.foldlM BufCall.run emptyBufs = .error .outOfBounds := by
  refine ⟨⟨?_, _, rfl, by decide, by decide⟩, ?_, by rfl⟩
  · refine stepsMeet_cons (by decide) fun s₁ h₁ => ?_
    cases h₁
    refine stepsMeet_cons (by decide) fun s₂ h₂ => ?_
    cases h₂
    refine stepsMeet_cons (by decide) fun s₃ h₃ => ?_
    cases h₃
    exact stepsMeet_cons (by decide) fun s₄ _ => stepsMeet_nil _ _ s₄
  · refine stepsMeet_cons (by decide) fun s₁ h₁ => ?_
    cases h₁
    refine stepsMeet_cons (by decide) fun s₂ h₂ => ?_
    cases h₂
    exact stepsMeet_cons (by decide) fun s₃ _ => stepsMeet_nil _ _ s₃

end SmartHAProxy
