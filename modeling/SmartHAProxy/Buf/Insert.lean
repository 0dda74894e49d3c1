/-
Moving bytes within a buffer: `b_move` and `b_insert_blk`.

`bMoveUp_spec` describes `b_move` for a positive shift: seen from the start of
the destination, the first `len` positions of the ring hold the bytes of the
source, and the others are as before.
-/
import SmartHAProxy.Buf.Content

namespace SmartHAProxy

variable {b : Buffer} {blk : List UInt8}

/-! ### `b_move` -/

/-- The position `k` places behind `start` in a ring of `size` places. -/
def ringPos (size start k : ℕ) : ℕ := if start + k ≥ size then start + k - size else start + k

theorem ringPos_cases (size start k : ℕ) :
    (start + k ≥ size ∧ ringPos size start k = start + k - size) ∨
      (start + k < size ∧ ringPos size start k = start + k) := by
  rw [ringPos]
  split_ifs <;> omega

theorem ringPos_inj {size start j k : ℕ} (hj : j < size) (hk : k < size)
    (h : ringPos size start j = ringPos size start k) : j = k := by
  have := ringPos_cases size start j
  have := ringPos_cases size start k
  omega

/-- One turn of the loop moves the last `cnt` bytes, none of which wraps. -/
theorem bMoveUp_turn {size len src shift : ℕ} {area : List UInt8} (hsize : area.length = size)
    (hsrc : src < size) (hshift : 0 < shift) (hlen : 0 < len) (hfit : len + shift ≤ size) :
    ∃ cnt area', 0 < cnt ∧ cnt ≤ len ∧ area'.length = size ∧
      (∀ fuel, bMoveUp size (fuel + 1) area src (src + shift) len
        = bMoveUp size fuel area' src (src + shift) (len - cnt)) ∧
      ∀ k < size, area'[ringPos size src k]?
        = if len - cnt + shift ≤ k ∧ k < len + shift then area[ringPos size src (k - shift)]?
          else area[ringPos size src k]? := by
  set dstEnd := if src + shift + len > size then src + shift + len - size else src + shift + len
    with hdst
  set srcEnd := if src + len > size then src + len - size else src + len with hsrcEnd
  set cnt := min (min len dstEnd) srcEnd with hcnt
  have hd : (src + shift + len > size ∧ dstEnd = src + shift + len - size) ∨
      (src + shift + len ≤ size ∧ dstEnd = src + shift + len) := by
    rw [hdst]
    split_ifs <;> omega
  have hs : (src + len > size ∧ srcEnd = src + len - size) ∨
      (src + len ≤ size ∧ srcEnd = src + len) := by
    rw [hsrcEnd]
    split_ifs <;> omega
  have hpos : 0 < cnt := by omega
  have hle : cnt ≤ len := by omega
  have hledst : cnt ≤ dstEnd := by omega
  have hlesrc : cnt ≤ srcEnd := by omega
  obtain ⟨area', hrun, hlen', hbytes⟩ :=
    memcpy_spec area (dstEnd - cnt) area (srcEnd - cnt) cnt (by omega)
  have hturn (fuel : ℕ) : bMoveUp size (fuel + 1) area src (src + shift) len
      = bMoveUp size fuel area' src (src + shift) (len - cnt) := by
    rw [bMoveUp, if_neg (by omega)]
    simp only [← hdst, ← hsrcEnd, ← hcnt, hrun]
    rfl
  -- the piece does not cross the end of the area
  have hdstPos (j : ℕ) (hj : j < cnt) :
      ringPos size src (len - cnt + shift + j) = dstEnd - cnt + j := by
    clear hs hturn hbytes
    have := ringPos_cases size src (len - cnt + shift + j)
    omega
  have hsrcPos (j : ℕ) (hj : j < cnt) :
      ringPos size src (len - cnt + j) = srcEnd - cnt + j := by
    clear hd hturn hbytes
    have := ringPos_cases size src (len - cnt + j)
    omega
  clear_value cnt dstEnd srcEnd
  refine ⟨cnt, area', hpos, hle, hlen'.trans hsize, hturn, fun k hk => ?_⟩
  rw [hbytes]
  by_cases hmoved : len - cnt + shift ≤ k ∧ k < len + shift
  · have hk₁ := hdstPos (k - (len - cnt + shift)) (by omega)
    have hk₂ := hsrcPos (k - (len - cnt + shift)) (by omega)
    rw [show len - cnt + shift + (k - (len - cnt + shift)) = k by omega] at hk₁
    rw [show len - cnt + (k - (len - cnt + shift)) = k - shift by omega] at hk₂
    rw [if_pos (by omega), if_pos hmoved, hk₂, hk₁]
    congr 1
    omega
  · rw [if_neg, if_neg hmoved]
    intro hin
    have hk₁ := hdstPos (ringPos size src k - (dstEnd - cnt)) (by omega)
    have := ringPos_inj (by omega) hk (hk₁.trans (by omega))
    omega

theorem bMoveUp_spec {size src shift : ℕ} (hsrc : src < size) (hshift : 0 < shift) (fuel : ℕ)
    {len : ℕ} {area : List UInt8} (hsize : area.length = size) (hfuel : len ≤ fuel)
    (hfit : len + shift ≤ size) :
    ∃ area', bMoveUp size fuel area src (src + shift) len = .ok area' ∧ area'.length = size ∧
      ∀ k < size, area'[ringPos size src k]?
        = if shift ≤ k ∧ k < len + shift then area[ringPos size src (k - shift)]?
          else area[ringPos size src k]? := by
  -- what is moved in later turns has not been overwritten by this one
  induction fuel generalizing len area with
  | zero =>
    refine ⟨area, rfl, hsize, fun k hk => ?_⟩
    rw [if_neg (by omega)]
  | succ fuel ih =>
    rcases Nat.eq_zero_or_pos len with rfl | hlen
    · refine ⟨area, by rw [bMoveUp, if_pos rfl], hsize, fun k hk => ?_⟩
      rw [if_neg (by omega)]
    obtain ⟨cnt, area₁, hpos, hle, hsize₁, hturn, hbytes₁⟩ :=
      bMoveUp_turn hsize hsrc hshift hlen hfit
    obtain ⟨area₂, hrun, hsize₂, hbytes₂⟩ := ih hsize₁ (by omega : len - cnt ≤ fuel) (by omega)
    refine ⟨area₂, (hturn fuel).trans hrun, hsize₂, fun k hk => ?_⟩
    rw [hbytes₂ k hk, hbytes₁ k hk, hbytes₁ (k - shift) (by omega)]
    split_ifs <;> first | rfl | omega

/-! ### `b_insert_blk` -/

theorem ringPos_bPeekOfs (h : b.Valid) {off k : ℕ} (hk : off + k < bSize b) :
    ringPos (bSize b) (bPeekOfs b off) k = bPeekOfs b (off + k) := by
  have := h.head_le
  have := bPeekOfs_cases b off
  have := bPeekOfs_cases b (off + k)
  have := ringPos_cases (bSize b) (bPeekOfs b off) k
  omega

theorem ringPos_bPeekOfs_before (h : b.Valid) {off k : ℕ} (hoff : off < bSize b) (hk : k < off) :
    ringPos (bSize b) (bPeekOfs b off) (bSize b - off + k) = bPeekOfs b k := by
  have := h.head_le
  have := bPeekOfs_cases b off
  have := bPeekOfs_cases b k
  have := ringPos_cases (bSize b) (bPeekOfs b off) (bSize b - off + k)
  omega

/-- `b_move` of the bytes from `off` on, by `shift` places. -/
theorem bMove_spec (h : b.Valid) {off shift : ℕ} (hoff : off < b.data) (hshift : 0 < shift)
    (hfit : b.data + shift ≤ bSize b) :
    ∃ b', bMove b (bPeekOfs b off) (b.data - off) shift = .ok b' ∧ bSize b' = bSize b ∧
      b'.head = b.head ∧ b'.data = b.data ∧
      ∀ k < bSize b, b'.area[bPeekOfs b k]?
        = if off + shift ≤ k ∧ k < b.data + shift then b.area[bPeekOfs b (k - shift)]?
          else b.area[bPeekOfs b k]? := by
  have hpeek := bPeekOfs_cases b off
  have hhead := h.head_le
  have hsrc : bPeekOfs b off < bSize b := by omega
  have hlen : b.data - off + shift ≤ bSize b := by omega
  obtain ⟨area', hrun, hsize, hbytes⟩ :=
    bMoveUp_spec hsrc hshift (b.data - off) rfl (Nat.le_refl (b.data - off)) hlen
  refine ⟨{ b with area := area' }, ?_, hsize, rfl, rfl, fun k hk => ?_⟩
  · have hdst : (↑(bPeekOfs b off) + ↑(bSize b) + (shift : ℤ)).toNat
        = bPeekOfs b off + bSize b + shift := by omega
    have hwrap : bPeekOfs b off + bSize b + shift ≥ bSize b := by omega
    have hdst' : bPeekOfs b off + bSize b + shift - bSize b = bPeekOfs b off + shift := by omega
    have hpos : ¬ (shift : ℤ) < 0 := by omega
    have hpos' : (shift : ℤ) > 0 := by omega
    simp only [bMove, hdst, if_pos hwrap, if_neg hpos, if_pos hpos', hdst', hrun]
    rfl
  · rcases Nat.lt_or_ge k off with hlt | hge
    · rw [← ringPos_bPeekOfs_before h (by omega) hlt, hbytes _ (by omega), if_neg (by omega),
        if_neg (by omega)]
    · obtain ⟨j, rfl⟩ := Nat.exists_eq_add_of_le hge
      rw [← ringPos_bPeekOfs h hk, hbytes j (by omega)]
      split_ifs
      · rw [ringPos_bPeekOfs h (by omega)]
        congr 2
        omega
      · omega
      · omega
      · rfl

/-- The branch of `b_insert_blk` that moves the end of the content. -/
theorem bInsertBlk_moves (h : b.Valid) {off : ℕ} (hoff : off < b.data) (hlen : 0 < blk.length)
    (hfit : b.data + blk.length ≤ bSize b) :
    ∃ b', bInsertBlk b off blk = .ok (b', blk.length) ∧ bSize b' = bSize b ∧ b'.Valid ∧
      b'.content = b.content.take off ++ blk ++ b.content.drop off := by
  obtain ⟨b₁, hmove, hsize₁, hhead₁, hdata₁, hbytes₁⟩ := bMove_spec h hoff hlen hfit
  have hhead := h.head_le
  have hroom : bRoom b = bSize b - b.data := rfl
  -- while the block is copied, the content ends at `off`
  set b₁' : Buffer := { b₁ with data := b₁.data - (b.data - off) } with hb₁'
  have hsize₁' : bSize b₁' = bSize b := hsize₁
  have hhead₁' : b₁'.head = b.head := hhead₁
  have hdata₁' : b₁'.data = off := by
    show b₁.data - (b.data - off) = off
    omega
  have hv : b₁'.Valid := ⟨by omega, by omega⟩
  have hfit' : b₁'.data + blk.length ≤ bSize b₁' := by omega
  obtain ⟨b₂, hput, hsize₂, hhead₂, hdata₂, hbytes₂⟩ := bPutblkUnchecked_spec hv hfit'
  have hnext : bPeekOfs b off ≠ bTailOfs b := by
    have := bPeekOfs_cases b off
    have : bPeekOfs b b.data = bTailOfs b := rfl
    have := bPeekOfs_cases b b.data
    omega
  have hrun : bInsertBlk b off blk
      = .ok ({ b₂ with data := b₂.data + (b.data - off) }, blk.length) := by
    simp only [bInsertBlk]
    rw [if_neg (by omega), if_neg hnext, hmove]
    simp only [bind, Except.bind, ← hb₁', hput]
    rfl
  set b' : Buffer := { b₂ with data := b₂.data + (b.data - off) } with hb'
  have hsize' : bSize b' = bSize b := hsize₂.trans hsize₁'
  have hhead' : b'.head = b.head := hhead₂.trans hhead₁'
  have hdata' : b'.data = b.data + blk.length := by
    show b₂.data + (b.data - off) = b.data + blk.length
    omega
  have hv' : b'.Valid := ⟨by omega, by omega⟩
  refine ⟨b', hrun, hsize', hv', content_eq_of_peek hv' ?_ fun k hk => ?_⟩
  · simp only [List.length_append, List.length_take, List.length_drop, h.length_content]
    omega
  have hpeek' : bPeekOfs b' k = bPeekOfs b k := by rw [bPeekOfs, bPeekOfs, hhead', hsize']
  have hpeek₁ : bPeekOfs b₁' k = bPeekOfs b k := by rw [bPeekOfs, bPeekOfs, hhead₁', hsize₁']
  have hbyte := hbytes₂ k (by omega)
  rw [hpeek₁] at hbyte
  have harea : b₁'.area[bPeekOfs b k]? = b₁.area[bPeekOfs b k]? := rfl
  rw [hpeek', show b'.area = b₂.area from rfl, hbyte, harea, hbytes₁ k (by omega), hdata₁']
  rw [List.append_assoc, List.getElem?_append, List.getElem?_append, List.getElem?_drop,
    List.length_take, h.length_content, Nat.min_eq_left (by omega), List.getElem?_take,
    getElem?_content h, getElem?_content h]
  split_ifs
  all_goals first | rfl | omega | (congr 2; omega)

theorem bInsertBlk_content (h : b.Valid) {off : ℕ} (hoff : off ≤ b.data) (blk : List UInt8) :
    ∃ b', bSize b' = bSize b ∧ b'.Valid ∧
      if blk.length ≤ bRoom b then
        bInsertBlk b off blk = .ok (b', blk.length) ∧
          b'.content = b.content.take off ++ blk ++ b.content.drop off
      else bInsertBlk b off blk = .ok (b', 0) ∧ b'.content = b.content := by
  have hdata := h.data_le
  have hroom : bRoom b = bSize b - b.data := rfl
  split_ifs with hfit
  · rcases Nat.eq_zero_or_pos blk.length with hnil | hlen
    · refine ⟨b, rfl, h, ?_, ?_⟩
      · rw [bInsertBlk, if_pos (.inl hnil), hnil]
        rfl
      · rw [List.length_eq_zero_iff.mp hnil, List.append_nil, List.take_append_drop]
    rcases Nat.lt_or_eq_of_le hoff with hlt | rfl
    · obtain ⟨b', hrun, hsize, hv, hcontent⟩ := bInsertBlk_moves h hlt hlen (by omega)
      exact ⟨b', hsize, hv, hrun, hcontent⟩
    · -- at the end of the content it is an append
      obtain ⟨b', hrun, hsize, -, hv, hcontent⟩ :=
        bPutblkUnchecked_content h (by omega : b.data + blk.length ≤ bSize b)
      refine ⟨b', hsize, hv, ?_, ?_⟩
      · simp only [bInsertBlk]
        rw [if_neg (by omega), if_pos (show bPeekOfs b b.data = bTailOfs b from rfl), hrun]
        rfl
      · have hlength : b.content.length ≤ b.data := Nat.le_of_eq h.length_content
        rw [List.take_of_length_le hlength, List.drop_eq_nil_of_le hlength, List.append_nil, hcontent]
  · refine ⟨b, rfl, h, ?_, rfl⟩
    rw [bInsertBlk, if_pos (.inr (by omega))]
    rfl

end SmartHAProxy
