/-
What the operations of a ring buffer do to its content.

The content of a buffer is the list of its bytes from the head on.  The
position of byte number `k` is `bPeekOfs b k`, which is one of two linear
expressions (`bPeekOfs_cases`); all that the proofs do with the wrapping is to
split into these two.

Each lemma here says that the operation meets no fault and what the content is
afterwards.
-/
import SmartHAProxy.Buf.Ring

namespace SmartHAProxy

/-! ### The content of a buffer -/

/-- The offsets that the operations leave behind.  The head is at the end of the
area after `b_slow_realign_ofs` with the size of the buffer. -/
structure Buffer.Valid (b : Buffer) : Prop where
  head_le : b.head ≤ bSize b
  data_le : b.data ≤ bSize b

/-- The bytes of a buffer in their order. -/
def Buffer.content (b : Buffer) : List UInt8 :=
  (b.area.drop b.head ++ b.area.take b.head).take b.data

variable {b b' : Buffer} {blk : List UInt8}

theorem Buffer.Valid.length_content (h : b.Valid) : b.content.length = b.data := by
  have := h.head_le
  have := h.data_le
  simp only [bSize] at *
  simp only [Buffer.content, List.length_take, List.length_append, List.length_drop]
  omega

theorem bPeekOfs_cases (b : Buffer) (k : ℕ) :
    (b.head + k ≥ bSize b ∧ bPeekOfs b k = b.head + k - bSize b) ∨
      (b.head + k < bSize b ∧ bPeekOfs b k = b.head + k) := by
  rw [bPeekOfs]
  split_ifs <;> omega

theorem getElem?_content (h : b.Valid) (k : ℕ) :
    b.content[k]? = if k < b.data then b.area[bPeekOfs b k]? else none := by
  have hhead := h.head_le
  have hdata := h.data_le
  have hsize : b.area.length = bSize b := rfl
  rw [Buffer.content, List.getElem?_take]
  split_ifs with hk
  · rw [List.getElem?_append, List.length_drop, List.getElem?_drop, List.getElem?_take, hsize]
    rcases bPeekOfs_cases b k with ⟨hw, hpeek⟩ | ⟨hw, hpeek⟩
    · rw [if_neg (by omega), if_pos (by omega), hpeek]
      congr 1
      omega
    · rw [if_pos (by omega), hpeek]
  · rfl

theorem content_eq_of_peek (hb : b.Valid) {xs : List UInt8} (hlen : xs.length = b.data)
    (h : ∀ k < b.data, b.area[bPeekOfs b k]? = xs[k]?) : b.content = xs := by
  apply List.ext_getElem?
  intro k
  rw [getElem?_content hb]
  split_ifs with hk
  · exact h k hk
  · exact (List.getElem?_eq_none (by omega)).symm

/-! ### Appending -/

theorem bContigSpace_cases (h : b.Valid) :
    (b.head + b.data ≥ bSize b ∧ bContigSpace b = bRoom b ∧ bTailOfs b = b.head + b.data - bSize b) ∨
      (b.head + b.data < bSize b ∧ bContigSpace b = bSize b - bTailOfs b ∧
        bTailOfs b = b.head + b.data) := by
  have hhead := h.head_le
  have hdata := h.data_le
  simp only [bContigSpace, bRoom, bTailOfs, bPeekOfs]
  split_ifs <;> omega

theorem bPutblkUnchecked_spec (h : b.Valid) (hfit : b.data + blk.length ≤ bSize b) :
    ∃ b', bPutblkUnchecked b blk = .ok b' ∧ bSize b' = bSize b ∧ b'.head = b.head ∧
      b'.data = b.data + blk.length ∧
      ∀ k < bSize b, b'.area[bPeekOfs b k]?
        = if b.data ≤ k ∧ k < b.data + blk.length then blk[k - b.data]?
          else b.area[bPeekOfs b k]? := by
  have hhead := h.head_le
  have hdata := h.data_le
  set half := min (bContigSpace b) blk.length with hhalf
  have hroom : bRoom b = bSize b - b.data := rfl
  have hsize : bSize b = b.area.length := rfl
  have htake : (blk.take half).length = half := by
    rw [List.length_take]
    omega
  have hdrop : (blk.drop half).length = blk.length - half := List.length_drop
  have hspace := bContigSpace_cases h
  have hfirst : blk.take half = [] ∨ bTailOfs b + (blk.take half).length ≤ b.area.length := by
    right
    omega
  -- the second block is empty unless the first one ends at the end of the area
  have hpeek : blk.length ≤ half ∨
      bPeekOfs b (b.data + half) = 0 ∧ b.head + b.data + half = bSize b := by
    have := bPeekOfs_cases b (b.data + half)
    omega
  have hsecond : blk.drop half = [] ∨
      bPeekOfs b (b.data + half) + (blk.drop half).length
        ≤ (overwrite b.area (bTailOfs b) (blk.take half)).length := by
    rw [length_overwrite hfirst, List.drop_eq_nil_iff]
    omega
  have hrun : bPutblkUnchecked b blk = .ok ⟨overwrite (overwrite b.area (bTailOfs b) (blk.take half))
      (bPeekOfs b (b.data + half)) (blk.drop half), b.head, b.data + blk.length⟩ := by
    simp only [bPutblkUnchecked, ← hhalf, memWrite_eq hfirst, bind, Except.bind, memWrite_eq hsecond]
    rfl
  refine ⟨_, hrun, ?_, rfl, rfl, fun k hk => ?_⟩
  · simp only [bSize, length_overwrite hsecond, length_overwrite hfirst]
  simp only [getElem?_overwrite hsecond, getElem?_overwrite hfirst, htake, hdrop,
    List.getElem?_take, List.getElem?_drop]
  have hk' := bPeekOfs_cases b k
  split_ifs <;> first | rfl | omega | (congr 1; omega)

theorem bPutblkUnchecked_content (h : b.Valid) (hfit : b.data + blk.length ≤ bSize b) :
    ∃ b', bPutblkUnchecked b blk = .ok b' ∧ bSize b' = bSize b ∧ b'.head = b.head ∧
      b'.Valid ∧ b'.content = b.content ++ blk := by
  obtain ⟨b', hrun, hsize, hhead, hdata, hbytes⟩ := bPutblkUnchecked_spec h hfit
  have hv : b'.Valid := ⟨by rw [hhead, hsize]; exact h.head_le, by omega⟩
  refine ⟨b', hrun, hsize, hhead, hv, content_eq_of_peek hv ?_ fun k hk => ?_⟩
  · rw [List.length_append, h.length_content, hdata]
  have hpeek : bPeekOfs b' k = bPeekOfs b k := by rw [bPeekOfs, bPeekOfs, hhead, hsize]
  rw [hpeek, hbytes k (by omega), List.getElem?_append, h.length_content, getElem?_content h]
  split_ifs <;> first | rfl | omega

theorem bPutchr_eq (h : b.Valid) (hroom : b.data < bSize b) (c : UInt8) :
    bPutchr b c = bPutblkUnchecked b [c] := by
  have hhalf : min (bContigSpace b) 1 = 1 := by
    have := bContigSpace_cases h
    have : bRoom b = bSize b - b.data := rfl
    omega
  have hne : bRoom b ≠ 0 := by
    have : bRoom b = bSize b - b.data := rfl
    omega
  simp only [bPutchr, bPutblkUnchecked, if_neg hne, List.length_singleton, hhalf, List.take_one,
    List.head?_cons, Option.toList_some, List.drop_one, List.tail_cons, memWrite_nil]
  rcases memWrite b.area (bTailOfs b) [c] with - | - <;> rfl

theorem bPutchr_content (h : b.Valid) (c : UInt8) :
    ∃ b', bPutchr b c = .ok b' ∧ bSize b' = bSize b ∧ b'.Valid ∧
      b'.content = if b.content.length < bSize b then b.content ++ [c] else b.content := by
  rw [h.length_content]
  split_ifs with hroom
  · have hfit : b.data + [c].length ≤ bSize b := hroom
    obtain ⟨b', hrun, hsize, -, hv, hcontent⟩ := bPutblkUnchecked_content h hfit
    exact ⟨b', (bPutchr_eq h hroom c).trans hrun, hsize, hv, hcontent⟩
  · have hfull : bRoom b = 0 := by
      rw [bRoom]
      omega
    exact ⟨b, by rw [bPutchr, if_pos hfull]; rfl, rfl, h, rfl⟩

theorem bPutblk_content (h : b.Valid) (blk : List UInt8) :
    ∃ b', bPutblk b blk = .ok (b', min blk.length (bRoom b)) ∧ bSize b' = bSize b ∧ b'.Valid ∧
      b'.content = b.content ++ blk.take (bRoom b) := by
  have hdata := h.data_le
  have hroom : bRoom b = bSize b - b.data := rfl
  rw [bPutblk]
  by_cases hlen : min blk.length (bRoom b) = 0
  · refine ⟨b, if_pos hlen, rfl, h, ?_⟩
    rcases Nat.min_eq_zero_iff.mp hlen with hnil | hfull
    · rw [List.length_eq_zero_iff.mp hnil, List.take_nil, List.append_nil]
    · rw [hfull, List.take_zero, List.append_nil]
  · have htake : blk.take (min blk.length (bRoom b)) = blk.take (bRoom b) := by
      rw [Nat.min_comm, ← List.take_take, List.take_length]
    have hfit : b.data + (blk.take (bRoom b)).length ≤ bSize b := by
      rw [List.length_take]
      omega
    obtain ⟨b', hrun, hsize, -, hv, hcontent⟩ := bPutblkUnchecked_content h hfit
    refine ⟨b', ?_, hsize, hv, hcontent⟩
    simp only [if_neg hlen, htake, hrun]
    rfl

/-! ### Deleting and reading -/

theorem bDel_content (h : b.Valid) {n : ℕ} (hn : n ≤ b.data) :
    bSize (bDel b n) = bSize b ∧ (bDel b n).Valid ∧ (bDel b n).content = b.content.drop n := by
  have hhead := h.head_le
  have hdata := h.data_le
  have hsize : bSize (bDel b n) = bSize b := rfl
  have hhead' : (bDel b n).head = bPeekOfs b n := rfl
  have hdata' : (bDel b n).data = b.data - n := rfl
  have hv : (bDel b n).Valid := by
    have := bPeekOfs_cases b n
    exact ⟨by omega, by omega⟩
  refine ⟨rfl, hv, content_eq_of_peek hv ?_ fun k hk => ?_⟩
  · rw [List.length_drop, h.length_content, hdata']
  have harea : (bDel b n).area = b.area := rfl
  rw [List.getElem?_drop, getElem?_content h, if_pos (by omega), harea]
  have := bPeekOfs_cases b n
  have := bPeekOfs_cases b (n + k)
  have := bPeekOfs_cases (bDel b n) k
  congr 1
  omega

theorem content_block (h : b.Valid) {pos offset len : ℕ} (hfit : offset + len ≤ b.data)
    (hpos : ∀ k < len, bPeekOfs b (offset + k) = pos + k) :
    (b.area.drop pos).take len = (b.content.drop offset).take len := by
  apply List.ext_getElem?
  intro k
  rw [getElem?_drop_take, getElem?_drop_take]
  split_ifs with hk
  · rw [getElem?_content h, if_pos (by omega), hpos k hk]
  · rfl

theorem bGetblk_content (h : b.Valid) {len offset : ℕ} (hfit : offset + len ≤ b.data) :
    bGetblk b len offset = .ok (len, (b.content.drop offset).take len) := by
  have hhead := h.head_le
  have hdata := h.data_le
  have hsize : bSize b = b.area.length := rfl
  have hpeek := bPeekOfs_cases b
  simp only [bGetblk]
  rw [if_neg (by omega)]
  split_ifs with hfirst hone
  · rw [memRead_eq (.inr (by omega)),
      content_block h hfit fun k hk => by have := hpeek (offset + k); omega]
    rfl
  · -- the block wraps
    set n := bSize b - b.head - offset with hn
    have hleft : (b.area.drop (b.head + offset)).take n = (b.content.drop offset).take n :=
      content_block h (by omega) fun k hk => by have := hpeek (offset + k); omega
    have hright : (b.area.drop 0).take (len - n) = (b.content.drop (offset + n)).take (len - n) :=
      content_block h (by omega) fun k hk => by have := hpeek (offset + n + k); omega
    rw [memRead_eq (.inr (by omega)), memRead_eq (.inr (by omega)), hleft, hright]
    have hsplit : (b.content.drop offset).take n ++ (b.content.drop (offset + n)).take (len - n)
        = (b.content.drop offset).take len := by
      rw [← List.drop_drop, ← List.take_add]
      congr 1
      omega
    simp only [bind, Except.bind, hsplit]
    rfl
  · rw [memRead_eq (.inr (by omega)),
      content_block h hfit fun k hk => by have := hpeek (offset + k); omega]
    rfl

/-! ### Transferring -/

theorem bXferBlock_content {dst src : Buffer} (hd : dst.Valid) (hs : src.Valid)
    (pos offset len : ℕ) (hfit : offset + len ≤ src.data) (hroom : dst.data + len ≤ bSize dst)
    (hin : len = 0 ∨ pos + len ≤ bSize src)
    (hpos : ∀ k < len, bPeekOfs src (offset + k) = pos + k) :
    ∃ dst', bXferBlock dst src pos len = .ok dst' ∧ bSize dst' = bSize dst ∧ dst'.Valid ∧
      dst'.content = dst.content ++ (src.content.drop offset).take len := by
  rw [bXferBlock]
  split_ifs with hlen
  · exact ⟨dst, rfl, rfl, hd, by rw [hlen, List.take_zero, List.append_nil]⟩
  have hblk : ((src.content.drop offset).take len).length = len := by
    rw [List.length_take, List.length_drop, hs.length_content]
    omega
  obtain ⟨dst', hrun, hsize, -, hv, hcontent⟩ :=
    bPutblkUnchecked_content hd (hblk.symm ▸ hroom)
  refine ⟨dst', ?_, hsize, hv, hcontent⟩
  rw [memRead_eq hin, content_block hs hfit hpos]
  exact hrun

/-- The copying branch of `b_xfer`, if the head of the source is inside its area. -/
theorem bXfer_copy {dst src : Buffer} (hd : dst.Valid) (hs : src.Valid) {count : ℕ}
    (hroom : count ≤ bRoom dst) (hhead : src.head < bSize src)
    (hsome : ¬ (count = 0 ∨ src.data = 0)) (hcopy : ¬ (src.data ≤ count ∧ dst.data = 0)) :
    ∃ dst' src', bXfer dst src count = .ok (dst', src', min src.data count) ∧
      dst'.Valid ∧ src'.Valid ∧ bSize dst' = bSize dst ∧ bSize src' = bSize src ∧
      dst'.content = dst.content ++ src.content.take count ∧
      src'.content = src.content.drop count := by
  have hdata := hs.data_le
  have hddata := hd.data_le
  have hdroom : bRoom dst = bSize dst - dst.data := rfl
  have hpeek := bPeekOfs_cases src
  set ret := min src.data count with hret
  set n := min (bContigData src 0) ret with hn
  have hcontig : bContigData src 0 = min (bSize src - src.head) src.data := by
    have := hpeek 0
    rw [bContigData]
    omega
  have hsplit : dst.content ++ (src.content.drop 0).take n ++ (src.content.drop (0 + n)).take (ret - n)
      = dst.content ++ src.content.take count := by
    rw [Nat.zero_add, List.drop_zero, List.append_assoc, ← List.take_add]
    congr 1
    rw [List.take_eq_take_iff, hs.length_content]
    omega
  have hdrop : src.content.drop ret = src.content.drop count := by
    rcases Nat.le_total src.data count with hle | hle
    · rw [List.drop_eq_nil_of_le (by rw [hs.length_content]; omega),
        List.drop_eq_nil_of_le (by rw [hs.length_content]; omega)]
    · rw [hret, Nat.min_eq_right hle]
  obtain ⟨dst₁, hrun₁, hsize₁, hv₁, hcontent₁⟩ :=
    bXferBlock_content hd hs src.head 0 n (by omega) (by omega) (by omega)
      fun k hk => by have := hpeek (0 + k); omega
  have hdata₁ : dst₁.data = dst.data + n := by
    rw [← hv₁.length_content, hcontent₁, List.length_append, hd.length_content, List.length_take,
      List.length_drop, hs.length_content]
    omega
  obtain ⟨dst₂, hrun₂, hsize₂, hv₂, hcontent₂⟩ :=
    bXferBlock_content hv₁ hs (bPeekOfs src n) (0 + n) (ret - n) (by omega) (by omega)
      (by have := hpeek n; omega) fun k hk => by have := hpeek (0 + n + k); have := hpeek n; omega
  obtain ⟨hdsize, hdv, hdcontent⟩ := bDel_content hs (Nat.min_le_left src.data count)
  refine ⟨dst₂, bDel src ret, ?_, hv₂, hdv, hsize₂.trans hsize₁, hdsize, ?_, hdcontent.trans hdrop⟩
  · simp only [bXfer, if_neg hsome, if_neg hcopy, ← hret, ← hn, hrun₁, bind, Except.bind, hrun₂]
    rfl
  · rw [hcontent₂, hcontent₁, hsplit]

end SmartHAProxy
