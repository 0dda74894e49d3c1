/-
`b_move` towards the head of a buffer.

The loop copies blocks that do not wrap, from left to right.  Seen from the destination,
byte number `k` comes from `k + shift`, which no earlier block has overwritten
(`bMoveDown_spec`).  On the content this is `memmove` (`bMove_content`).
-/
import SmartHAProxy.Buf.Insert

namespace SmartHAProxy

variable {b : Buffer}

theorem ringPos_ringPos {size start j k : ℕ} (hstart : start < size) (hjk : j + k ≤ size) :
    ringPos size (ringPos size start j) k = ringPos size start (j + k) := by
  have hj := ringPos_cases size start j
  have hk := ringPos_cases size (ringPos size start j) k
  rcases ringPos_cases size start (j + k) with ⟨h, heq⟩ | ⟨h, heq⟩
  · omega
  · omega

theorem bMoveDown_turn {size len dst shift : ℕ} {area : List UInt8} (hsize : area.length = size)
    (hdst : dst < size) (hshift : 0 < shift) (hlen : 0 < len) (hfit : shift + len ≤ size) :
    ∃ cnt area', 0 < cnt ∧ cnt ≤ len ∧ area'.length = size ∧
      (∀ fuel, bMoveDown size (fuel + 1) area (ringPos size dst shift) dst len =
        bMoveDown size fuel area' (ringPos size (ringPos size dst cnt) shift)
          (ringPos size dst cnt) (len - cnt)) ∧
      ∀ k < size, area'[ringPos size dst k]? =
        if k < cnt then area[ringPos size dst (k + shift)]? else area[ringPos size dst k]? := by
  have hsrc := ringPos_cases size dst shift
  obtain ⟨cnt, hcnt⟩ : ∃ cnt, cnt = min (min len (size - ringPos size dst shift)) (size - dst) :=
    ⟨_, rfl⟩
  have hpos : 0 < cnt := by omega
  have hle : cnt ≤ len := by omega
  obtain ⟨area', hrun, hlen', hbytes⟩ :=
    memcpy_spec area dst area (ringPos size dst shift) cnt (.inr (by omega))
  refine ⟨cnt, area', hpos, hle, hlen'.trans hsize, fun fuel => ?_, fun k hk => ?_⟩
  · -- both ends of the block are brought back into the area
    have hnext : ringPos size (ringPos size dst shift) cnt =
        ringPos size (ringPos size dst cnt) shift := by
      rw [ringPos_ringPos hdst (by omega), ringPos_ringPos hdst (by omega), Nat.add_comm]
    rw [← hnext, bMoveDown, if_neg (Nat.pos_iff_ne_zero.mp hlen)]
    simp only [← hcnt, hrun]
    rfl
  · have hk' := ringPos_cases size dst k
    rw [hbytes]
    split_ifs with hin hlt hlt
    · have := ringPos_cases size dst (k + shift)
      congr 1
      omega
    · omega
    · omega
    · rfl

/-- The whole loop. -/
theorem bMoveDown_spec {size dst shift : ℕ} (hdst : dst < size) (hshift : 0 < shift) (fuel : ℕ)
    {len : ℕ} {area : List UInt8} (hsize : area.length = size) (hfuel : len ≤ fuel)
    (hfit : shift + len ≤ size) :
    ∃ area', bMoveDown size fuel area (ringPos size dst shift) dst len = .ok area' ∧
      area'.length = size ∧ ∀ k < size, area'[ringPos size dst k]? =
        if k < len then area[ringPos size dst (k + shift)]? else area[ringPos size dst k]? := by
  induction fuel generalizing dst len area with
  | zero =>
    refine ⟨area, rfl, hsize, fun k hk => ?_⟩
    rw [if_neg (by omega)]
  | succ fuel ih =>
    rcases Nat.eq_zero_or_pos len with rfl | hlen
    · refine ⟨area, by rw [bMoveDown, if_pos rfl], hsize, fun k hk => ?_⟩
      rw [if_neg (by omega)]
    · obtain ⟨cnt, area₁, hpos, hle, hsize₁, hturn, hbytes₁⟩ :=
        bMoveDown_turn hsize hdst hshift hlen hfit
      have hd := ringPos_cases size dst cnt
      obtain ⟨area₂, hrun, hsize₂, hbytes₂⟩ :=
        ih (by omega : ringPos size dst cnt < size) hsize₁ (by omega : len - cnt ≤ fuel)
          (by omega)
      refine ⟨area₂, (hturn fuel).trans hrun, hsize₂, fun k hk => ?_⟩
      have hk' := ringPos_cases size dst k
      rcases Nat.lt_or_ge k cnt with hlt | hge
      · -- this turn has written it, and it is behind all that is written later
        have hlast : ringPos size (ringPos size dst cnt) (size - cnt + k) =
            ringPos size dst k := by
          have hlast := ringPos_cases size (ringPos size dst cnt) (size - cnt + k)
          rcases hd with ⟨h, heq⟩ | ⟨h, heq⟩
          · omega
          · omega
        rw [← hlast, hbytes₂ _ (by omega), if_neg (by omega), hlast, hbytes₁ k hk, if_pos hlt,
          if_pos (by omega)]
      · obtain ⟨j, rfl⟩ := Nat.exists_eq_add_of_le hge
        have hj : ∀ i, cnt + i < size →
            ringPos size (ringPos size dst cnt) i = ringPos size dst (cnt + i) := by
          intro i hi
          exact ringPos_ringPos hdst (Nat.le_of_lt hi)
        rw [← hj j hk, hbytes₂ j (by omega)]
        split_ifs with h1 h2 h2
        · rw [hj _ (by omega), hbytes₁ _ (by omega), if_neg (by omega), Nat.add_assoc]
        · omega
        · omega
        · rw [hj j hk, hbytes₁ _ hk, if_neg (by omega)]

/-- **`b_move` towards the head** is `memmove` on the content. -/
theorem bMove_content (h : b.Valid) {dst shift len : ℕ} (hshift : 0 < shift)
    (hfit : dst + shift + len ≤ b.data) :
    ∃ b', bMove b (bPeekOfs b (dst + shift)) len (-(shift : ℤ)) = .ok b' ∧ bSize b' = bSize b ∧
      b'.head = b.head ∧ b'.data = b.data ∧ b'.Valid ∧
      b'.content = overwrite b.content dst ((b.content.drop (dst + shift)).take len) := by
  have hhead := h.head_le
  have hdata := h.data_le
  rcases Nat.eq_zero_or_pos len with rfl | hlen
  · refine ⟨b, ?_, rfl, rfl, rfl, h, ?_⟩
    · have hneg : -(shift : ℤ) < 0 := by omega
      simp only [bMove, if_pos hneg, bMoveDown]
      rfl
    · rw [List.take_zero, overwrite_nil]
  · have hd := bPeekOfs_cases b dst
    have hs := bPeekOfs_cases b (dst + shift)
    have hr := ringPos_cases (bSize b) (bPeekOfs b dst) shift
    have hsrc : ringPos (bSize b) (bPeekOfs b dst) shift = bPeekOfs b (dst + shift) := by omega
    obtain ⟨area', hrun, hsize, hbytes⟩ := bMoveDown_spec (by omega : bPeekOfs b dst < bSize b)
      hshift len rfl (Nat.le_refl len) (by omega)
    have hsize' : bSize { b with area := area' } = bSize b := hsize
    have hv : Buffer.Valid { b with area := area' } := ⟨by rwa [hsize'], by rwa [hsize']⟩
    have hblk : ((b.content.drop (dst + shift)).take len).length = len := by
      rw [List.length_take, List.length_drop, h.length_content]
      omega
    have hwrite : (b.content.drop (dst + shift)).take len = [] ∨
        dst + ((b.content.drop (dst + shift)).take len).length ≤ b.content.length := by
      rw [hblk, h.length_content]
      omega
    refine ⟨{ b with area := area' }, ?_, hsize, rfl, rfl, hv, content_eq_of_peek hv ?_ ?_⟩
    · have hneg : -(shift : ℤ) < 0 := by omega
      have hto : ((bPeekOfs b (dst + shift) : ℤ) + (bSize b : ℤ) + -(shift : ℤ)).toNat =
          bPeekOfs b (dst + shift) + bSize b - shift := by omega
      have hdst : (if bPeekOfs b (dst + shift) + bSize b - shift ≥ bSize b then
          bPeekOfs b (dst + shift) + bSize b - shift - bSize b
          else bPeekOfs b (dst + shift) + bSize b - shift) = bPeekOfs b dst := by
        split_ifs <;> omega
      rw [hsrc] at hrun
      simp only [bMove, hto, hdst, if_pos hneg, hrun]
      rfl
    · rw [length_overwrite hwrite, h.length_content]
    · intro k hk
      have hk : k < b.data := hk
      have hpeek : bPeekOfs { b with area := area' } k = bPeekOfs b k := by
        rw [bPeekOfs, bPeekOfs, hsize']
      rw [hpeek, getElem?_overwrite hwrite, hblk, getElem?_drop_take]
      show area'[bPeekOfs b k]? = _
      rcases Nat.lt_or_ge k dst with hlt | hge
      · -- the positions before the destination come last
        rw [← ringPos_bPeekOfs_before h (by omega : dst < bSize b) hlt, hbytes _ (by omega),
          if_neg (by omega), ringPos_bPeekOfs_before h (by omega) hlt, if_neg (by omega),
          getElem?_content h, if_pos hk]
      · obtain ⟨j, rfl⟩ := Nat.exists_eq_add_of_le hge
        rw [← ringPos_bPeekOfs h (by omega), hbytes j (by omega)]
        split_ifs with h1 h2 h3 h2 h3
        · rw [ringPos_bPeekOfs h (by omega), getElem?_content h, if_pos (by omega)]
          congr 2
          omega
        all_goals first | omega | skip
        rw [ringPos_bPeekOfs h (by omega), getElem?_content h, if_pos hk]

end SmartHAProxy
