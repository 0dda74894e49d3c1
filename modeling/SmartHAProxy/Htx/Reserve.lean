/-
Blocks are appended to a message.

Wherever `htx_reserve_nxblk` finds the place for a block, and whatever it
defragments for it, the message stays well-formed and its content becomes longer
by the block that is stored there.

Main result: `Wf.reserveNxblk`.
-/
import SmartHAProxy.Htx.Defrag

namespace SmartHAProxy

namespace HtxBuf

variable {htx htx' : HtxBuf} {trash : HtxTrash} {h n a blksz info : ℕ} {bs : CStr}

/-! ### One block more -/

/-- The words that may be stored with a payload: a used block of its length. -/
structure Describes (info : ℕ) (bs : CStr) : Prop where
  used : (HtxDesc.mk 0 info).used = true
  size : (HtxDesc.mk 0 info).getBlksz = bs.length

/-- `htx'` has a block more than `htx`, at position `n`, with its payload in one of the rooms. -/
structure Pushed (htx htx' : HtxBuf) (h n a info : ℕ) (bs : CStr) : Prop where
  head : htx'.head = some h
  tail : htx'.tail = some n
  size : htx'.size = htx.size
  data : htx'.data = htx.data + bs.length
  endAddr : htx'.endAddr = htx.endAddr
  blk : htx'.blk = Function.update htx.blk n ⟨a, info⟩
  area : htx'.area = writeAt htx.area a bs
  rooms : a = htx.tailAddr ∧ htx'.tailAddr = htx.tailAddr + bs.length ∧
      htx'.headAddr = htx.headAddr ∨
    a = htx.headAddr ∧ htx'.headAddr = htx.headAddr + bs.length ∧ htx'.tailAddr = htx.tailAddr ∧
      htx'.headAddr ≤ htx.endAddr
  below : htx'.tailAddr + 8 * (n + 1) ≤ htx.size
  next : 8 * (n + 2) ≤ htx.size

theorem Pushed.apart_new (hs : htx.Shape h n) (hp : Pushed htx htx' h n a info bs) {p : ℕ}
    (hlow : h ≤ p) (hhigh : p < n) (hlive : (htx.blk p).Live) :
    CellsApart (htx.blk p).addr (htx.blk p).getBlksz a bs.length := by
  have hin := hs.inside p hlow hhigh hlive
  have hroom := hs.room
  have hsep := hs.sep
  rcases hp.rooms with ⟨rfl, -, -⟩ | ⟨rfl, hroom', -, hle⟩
  · exact .inl (by omega)
  · rcases hin with hin | hin
    · exact .inl hin
    · exact .inr (by omega)

theorem Pushed.blk_old (hp : Pushed htx htx' h n a info bs) {p : ℕ} (hhigh : p < n) :
    htx'.blk p = htx.blk p := by
  rw [hp.blk, Function.update_of_ne (Nat.ne_of_lt hhigh)]

theorem Pushed.blk_new (hp : Pushed htx htx' h n a info bs) : htx'.blk n = ⟨a, info⟩ := by
  rw [hp.blk, Function.update_self]

theorem Pushed.payload_old (hs : htx.Shape h n) (hp : Pushed htx htx' h n a info bs) {p : ℕ}
    (hlow : h ≤ p) (hhigh : p < n) (hused : (htx.blk p).used = true) :
    htx'.payload p = htx.payload p := by
  rw [payload, payload, hp.blk_old hhigh, hp.area]
  rcases Nat.eq_zero_or_pos (htx.blk p).getBlksz with hzero | hpos
  · rw [hzero, readAt_zero, readAt_zero]
  · exact readAt_writeAt_apart _ (hp.apart_new hs hlow hhigh ⟨hused, hpos⟩)

theorem Pushed.payload_new (hd : Describes info bs) (hp : Pushed htx htx' h n a info bs) :
    htx'.payload n = bs := by
  have hsize : (HtxDesc.mk a info).getBlksz = bs.length := hd.size
  rw [payload, hp.blk_new, hp.area, hsize]
  exact readAt_writeAt _ _ _

theorem Pushed.usedSlots (hs : htx.Shape h n) (hd : Describes info bs)
    (hp : Pushed htx htx' h n a info bs) : htx'.usedSlots = htx.usedSlots ++ [n] := by
  have hle := hs.le
  have htail : htx'.tail = posBefore (n + 1) := hp.tail.trans (posBefore_succ n).symm
  have hcount : n + 1 - h = n - h + 1 := by omega
  have hnew : (htx'.blk n).used = true := by
    rw [hp.blk_new]
    exact hd.used
  rw [HtxBuf.usedSlots, HtxBuf.usedSlots, slots_eq hp.head htail, hs.slots, hcount,
    List.range'_1_concat, List.filter_append]
  have hend : h + (n - h) = n := by omega
  rw [hend]
  congr 1
  · refine List.filter_congr fun p hmem => ?_
    rw [List.mem_range'_1] at hmem
    rw [hp.blk_old (by omega)]
  · exact List.filter_cons_of_pos (p := fun p => (htx'.blk p).used) hnew

theorem Pushed.content (hs : htx.Shape h n) (hd : Describes info bs)
    (hp : Pushed htx htx' h n a info bs) : htx'.content = htx.content ++ [(info, bs)] := by
  rw [HtxBuf.content, hp.usedSlots hs hd, List.map_append, HtxBuf.content]
  congr 1
  · refine List.map_congr_left fun p hmem => ?_
    obtain ⟨⟨hlow, hhigh⟩, hused⟩ := hs.mem_usedSlots.mp hmem
    rw [entry, entry, hp.payload_old hs hlow hhigh hused, hp.blk_old hhigh]
  · rw [List.map_singleton, entry, hp.payload_new hd, hp.blk_new]

/-- **One block more** in a well-formed message. -/
theorem Pushed.shape (hs : htx.Shape h n) (hd : Describes info bs)
    (hp : Pushed htx htx' h n a info bs) : htx'.Shape h (n + 1) := by
  have hle := hs.le
  have hroom := hs.room
  have hsep := hs.sep
  have hrooms := hp.rooms
  have hend := hp.endAddr
  have hsize := hd.size
  refine ⟨hp.head, hp.tail.trans (posBefore_succ n).symm, Nat.le_succ_of_le hle, ?_, ?_, ?_, ?_,
    ?_, ?_, fun p hlow hhigh hlive => ?_, fun p q hlow hhigh hlow' hhigh' hne hlive hlive' => ?_,
    fun p hlow hhigh hused => ?_, fun p hlow hhigh hunused => ?_, ?_, ?_⟩
  · rw [hp.size]
    exact hs.size
  · rw [hp.size]
    exact hs.align
  · omega
  · omega
  · rw [hp.size]
    exact hp.below
  · rw [hp.size]
    exact hp.next
  -- from here on: an old block, or the new one
  · rcases Nat.lt_succ_iff_lt_or_eq.mp hhigh with hold | rfl
    · rw [hp.blk_old hold] at hlive ⊢
      have hin := hs.inside p hlow hold hlive
      omega
    · rw [hp.blk_new]
      have hlen : (HtxDesc.mk a info).getBlksz = bs.length := hsize
      rw [hlen]
      show a + bs.length ≤ _ ∨ _ ≤ a ∧ a + bs.length ≤ _
      omega
  · have hlen : (HtxDesc.mk a info).getBlksz = bs.length := hsize
    rcases Nat.lt_succ_iff_lt_or_eq.mp hhigh with hold | rfl
    · rw [hp.blk_old hold] at hlive ⊢
      rcases Nat.lt_succ_iff_lt_or_eq.mp hhigh' with hold' | rfl
      · rw [hp.blk_old hold'] at hlive' ⊢
        exact hs.apart p q hlow hold hlow' hold' hne hlive hlive'
      · rw [hp.blk_new, hlen]
        exact hp.apart_new hs hlow hold hlive
    · rcases Nat.lt_succ_iff_lt_or_eq.mp hhigh' with hold' | rfl
      · rw [hp.blk_old hold'] at hlive' ⊢
        rw [hp.blk_new, hlen]
        exact (hp.apart_new hs hlow' hold' hlive').symm
      · exact absurd rfl hne
  · rw [hp.size]
    rcases Nat.lt_succ_iff_lt_or_eq.mp hhigh with hold | rfl
    · rw [hp.blk_old hold] at hused ⊢
      exact hs.reach p hlow hold hused
    · rw [hp.blk_new]
      show a ≤ htx.size
      have hbelow := hp.below
      omega
  · rcases Nat.lt_succ_iff_lt_or_eq.mp hhigh with hold | rfl
    · rw [hp.blk_old hold] at hunused ⊢
      exact hs.zero p hlow hold hunused
    · rw [hp.blk_new] at hunused
      exact absurd (hunused.symm.trans hd.used) Bool.false_ne_true
  · have hsizes : htx'.content.map (fun e => e.2.length)
        = htx.content.map (fun e => e.2.length) ++ [bs.length] := by
      rw [hp.content hs hd, List.map_append, List.map_singleton]
    rw [content_sizes, content_sizes] at hsizes
    rw [hsizes, List.sum_append, ← hs.data, List.sum_singleton, hp.data]
  · have hle' := hs.room_le
    rw [hp.data]
    omega

/-! ### `htx_reserve_nxblk` -/

/-- The block that was reserved, with what is stored in it. -/
structure Stored (htx : HtxBuf) (r : ℕ × HtxBuf) (info : ℕ) (bs : CStr) : Prop where
  shape : ∃ h ≤ r.1, (r.2.store r.1 info bs).Shape h (r.1 + 1)
  content : (r.2.store r.1 info bs).content = htx.content ++ [(info, bs)]
  size : r.2.size = htx.size
  data : r.2.data = htx.data + bs.length
  positions : (r.2.store r.1 info bs).nbblks ≤ htx.nbblks + 1

theorem Pushed.stored (hs : htx.Shape h n) (hd : Describes info bs) {r : HtxBuf}
    (hp : Pushed htx (r.store n info bs) h n a info bs) : Stored htx (n, r) info bs := by
  refine ⟨⟨h, hs.le, hp.shape hs hd⟩, hp.content hs hd, hp.size, hp.data, ?_⟩
  rw [(hp.shape hs hd).nbblks, hs.nbblks]
  omega

theorem update_update_info (f : ℕ → HtxDesc) (n : ℕ) (d : HtxDesc) (info : ℕ) :
    Function.update (Function.update f n d) n { Function.update f n d n with info := info }
      = Function.update f n ⟨d.addr, info⟩ := by
  rw [Function.update_self, Function.update_idem]

theorem Shape.push_tail (hs : htx.Shape h n) (hd : Describes info bs)
    (hbelow : htx.tailAddr + bs.length + 8 * (n + 1) ≤ htx.size) (hnext : 8 * (n + 2) ≤ htx.size) :
    Stored htx (n, { pushBlk htx n bs.length htx.tailAddr with
      tailAddr := htx.tailAddr + bs.length }) info bs := by
  refine Pushed.stored (a := htx.tailAddr) hs hd ⟨hs.head, rfl, rfl, rfl, rfl, ?_, ?_,
    .inl ⟨rfl, rfl, rfl⟩, hbelow, hnext⟩
  · exact update_update_info _ _ _ _
  · show writeAt htx.area (Function.update htx.blk n _ n).addr bs = _
    rw [Function.update_self]

theorem Shape.push_head (hs : htx.Shape h n) (hd : Describes info bs)
    (hbelow : htx.tailAddr + 8 * (n + 1) ≤ htx.size) (hnext : 8 * (n + 2) ≤ htx.size)
    (hroom : htx.headAddr + bs.length ≤ htx.endAddr) :
    Stored htx (n, { pushBlk htx n bs.length htx.headAddr with
      headAddr := htx.headAddr + bs.length }) info bs := by
  refine Pushed.stored (a := htx.headAddr) hs hd ⟨hs.head, rfl, rfl, rfl, rfl, ?_, ?_,
    .inr ⟨rfl, rfl, rfl, hroom⟩, hbelow, hnext⟩
  · exact update_update_info _ _ _ _
  · show writeAt htx.area (Function.update htx.blk n _ n).addr bs = _
    rw [Function.update_self]

theorem Stored.of_content {r : ℕ × HtxBuf} (hst : Stored htx' r info bs)
    (hr : Renumbered htx htx') : Stored htx r info bs := by
  refine ⟨hst.shape, by rw [hst.content, hr.content], hst.size.trans hr.size,
    by rw [hst.data, hr.data], hst.positions.trans (Nat.succ_le_succ ?_)⟩
  -- the positions that remain are those of the used blocks
  rw [nbblks, tailSucc, hr.head, hr.tail, posBefore_elim]
  exact length_usedSlots_le htx

theorem Shape.reserveDefrag (hs : htx.Shape h n) (hd : Describes info bs)
    (hfree : htx.data + bs.length + 8 * (htx.usedSlots.length + 1) ≤ htx.size)
    (hnext : 8 * (htx.usedSlots.length + 2) ≤ htx.size) :
    Stored htx (reserveDefrag trash htx bs.length) info bs := by
  obtain ⟨hren, hs', htail, -⟩ := hs.defrag_none trash
  rw [HtxBuf.reserveDefrag]
  generalize (defrag trash htx none 0).2 = htx₁ at hren hs' htail ⊢
  dsimp only
  rw [hs'.tailSucc]
  refine (hs'.push_tail hd ?_ ?_).of_content hren
  · rw [htail, hren.size]
    exact hfree
  · rw [hren.size]
    exact hnext

/-- There is room for the descriptor at position `n`. -/
theorem Shape.reservePlace (hs : htx.Shape h n) (hd : Describes info bs)
    (hbelow : htx.tailAddr + 8 * (n + 1) ≤ htx.size)
    (hfree : htx.data + bs.length + 8 * (htx.usedSlots.length + 1) ≤ htx.size)
    (hnext : bs.length = 0 → 8 * (n + 2) ≤ htx.size) :
    Stored htx (reservePlace trash htx n bs.length) info bs := by
  have hsize := hs.size
  have hroom := hs.room
  have hsep := hs.sep
  have hcount : htx.usedSlots.length ≤ n - h := hs.nbblks ▸ length_usedSlots_le htx
  have haddr : htx.posToAddr n = htx.size - 8 * (n + 1) := posToAddr_eq (by omega) hsize
  have hgap : sub32 htx.endAddr htx.headAddr = htx.endAddr - htx.headAddr :=
    sub32_eq hroom (by omega)
  have htail : sub32 (htx.posToAddr n) htx.tailAddr = htx.size - 8 * (n + 1) - htx.tailAddr := by
    rw [haddr]
    exact sub32_eq (by omega) (by omega)
  have hnext' : ∀ k, k + 8 * (n + 1) ≤ htx.size → (0 < bs.length → 0 < k) →
      8 * (n + 2) ≤ htx.size := by
    intro k hk hpos
    rcases Nat.eq_zero_or_pos bs.length with hzero | hlen
    · exact hnext hzero
    · exact next_of_pos hs.align (hpos hlen) hk
  rw [HtxBuf.reservePlace, hgap, htail]
  dsimp only
  by_cases hfits : bs.length ≤ if htx.headAddr = 0 then htx.size - 8 * (n + 1) - htx.tailAddr else 0
  · rw [if_pos hfits]
    have hle : htx.tailAddr + bs.length + 8 * (n + 1) ≤ htx.size := by
      split_ifs at hfits <;> omega
    exact hs.push_tail hd hle (hnext' _ hle (by omega))
  rw [if_neg hfits]
  by_cases hhead : bs.length ≤ htx.endAddr - htx.headAddr
  · rw [if_pos hhead]
    exact hs.push_head hd hbelow (hnext' _ hbelow (by omega)) (by omega)
  · rw [if_neg hhead]
    refine hs.reserveDefrag hd hfree ?_
    rcases Nat.eq_zero_or_pos bs.length with hlen | hlen
    · have hle := hnext hlen
      omega
    · exact next_of_pos hs.align (Nat.add_pos_right htx.data hlen) hfree

theorem freeDataSpace_le {k : ℕ} (hk : 0 < k ∨ 8 ≤ htx.freeSpace) (hle : k ≤ htx.freeDataSpace) :
    k + 8 ≤ htx.freeSpace := by
  rw [freeDataSpace] at hle
  split_ifs at hle <;> omega

theorem Shape.reserveNxblk (hs : htx.Shape h n) (hlt : h < n) (hd : Describes info bs)
    (hfree : bs.length + 8 ≤ htx.freeSpace) (hle : bs.length ≤ htx.freeDataSpace)
    (hzero : bs.length = 0 → 9 ≤ htx.freeSpace) :
    ∃ r, reserveNxblk trash htx bs.length = some r ∧ Stored htx r info bs := by
  have hcount : htx.usedSlots.length ≤ n - h := hs.nbblks ▸ length_usedSlots_le htx
  have hspace := hs.usedSpace_le
  have hnext := hs.next
  rw [hs.freeSpace] at hfree hzero
  have hfits : htx.data + bs.length + 8 * (htx.usedSlots.length + 1) ≤ htx.size := by omega
  have haddr : htx.posToAddr n = htx.size - 8 * (n + 1) := posToAddr_eq hnext hs.size
  rw [HtxBuf.reserveNxblk, if_neg (Nat.not_lt.mpr hle), hs.head]
  dsimp only
  rw [hs.tailSucc]
  by_cases hbelow : htx.posToAddr n ≥ htx.tailAddr
  · rw [if_pos hbelow]
    refine ⟨_, rfl, hs.reservePlace hd (by omega) hfits fun hlen => ?_⟩
    -- the table is full only if there are payloads, or it begins at position 0
    have hroom := hs.room
    have hsep := hs.sep
    have hle' := hs.room_le
    have hfree' := hzero hlen
    rcases Nat.eq_zero_or_pos htx.tailAddr with htail | htail
    · exact next_of_pos hs.align Nat.one_pos (by omega)
    · exact next_of_pos hs.align htail (by omega)
  rw [if_neg hbelow]
  by_cases hpos : h > 0
  · -- there are fewer blocks than positions
    rw [if_pos hpos]
    obtain ⟨hren, hs', htail, -⟩ := hs.defragBlks hpos
    have hbelow' := hs.below
    rw [hs'.tailSucc]
    refine ⟨_, rfl, (hs'.reservePlace hd ?_ ?_ fun _ => ?_).of_content hren⟩
    · rw [htail, hren.size]
      omega
    · rw [hren.data, hren.size, hren.usedSlots, List.length_range]
      exact hfits
    · rw [hren.size]
      omega
  · rw [if_neg hpos]
    refine ⟨_, rfl, hs.reserveDefrag hd hfits ?_⟩
    rcases Nat.eq_zero_or_pos bs.length with hlen | hlen
    · have hfree' := hzero hlen
      exact next_of_pos hs.align Nat.one_pos (by omega)
    · exact next_of_pos hs.align (Nat.add_pos_right htx.data hlen) hfits

theorem usedSlots_zero (hh : htx.head = some 0) (ht : htx.tail = none) : htx.usedSlots = [] := by
  rw [usedSlots, slots_eq (n := 0) hh ht]
  rfl

theorem Blank.reserveNxblk (hb : htx.Blank) (hd : Describes info bs)
    (hfree : bs.length + 8 ≤ htx.freeSpace) (hle : bs.length ≤ htx.freeDataSpace)
    (hzero : bs.length = 0 → 9 ≤ htx.freeSpace) :
    ∃ r, reserveNxblk trash htx bs.length = some r ∧ Stored htx r info bs := by
  have hsize := hb.size
  have hspace : htx.freeSpace = htx.size := by
    rw [freeSpace, usedSpace, metaSpace, hb.tail, hb.data, if_pos rfl,
      sub32_eq (Nat.zero_le _) (by omega)]
    rfl
  have hnext : 16 ≤ htx.size := by
    rcases Nat.eq_zero_or_pos bs.length with hlen | hlen
    · have hfree' := hzero hlen
      have hnext := next_of_pos (n := 1) hb.align Nat.one_pos (by omega)
      omega
    · have := next_of_pos (n := 1) hb.align hlen (by omega)
      omega
  -- as if there had been an empty table
  have hslots : ({ htx with head := some 0 } : HtxBuf).usedSlots = [] := usedSlots_zero rfl hb.tail
  have hempty : ({ htx with head := some 0 } : HtxBuf).Shape 0 0 := by
    refine ⟨rfl, hb.tail, Nat.le_refl 0, hsize, hb.align, ?_, .inr ⟨hb.endAddr, hb.tailAddr, rfl⟩,
      ?_, ?_, fun p _ hp => absurd hp (Nat.not_lt_zero p),
      fun p q _ hp => absurd hp (Nat.not_lt_zero p), fun p _ hp => absurd hp (Nat.not_lt_zero p),
      fun p _ hp => absurd hp (Nat.not_lt_zero p), ?_, ?_⟩
    · exact Nat.le_of_eq (hb.headAddr.trans hb.endAddr.symm)
    · show htx.tailAddr + 8 * 0 ≤ htx.size
      rw [hb.tailAddr]
      exact Nat.zero_le _
    · show 8 * (0 + 1) ≤ htx.size
      omega
    · rw [hslots]
      exact hb.data
    · show htx.data + htx.endAddr ≤ htx.headAddr + htx.tailAddr
      rw [hb.data, hb.endAddr]
      exact Nat.zero_le _
  have hpushed : Pushed { htx with head := some 0 } (store { htx with
      head := some 0, tail := some 0, first := some 0, data := bs.length, tailAddr := bs.length
      blk := Function.update htx.blk 0 { htx.blk 0 with addr := 0 } } 0 info bs) 0 0 0 info bs := by
    refine ⟨rfl, rfl, rfl, ?_, rfl, ?_, ?_, .inl ⟨hb.tailAddr.symm, ?_, rfl⟩, ?_, hnext⟩
    · show bs.length = htx.data + bs.length
      rw [hb.data, Nat.zero_add]
    · exact update_update_info _ _ _ _
    · have haddr : (Function.update htx.blk 0 { htx.blk 0 with addr := 0 } 0).addr = 0 := by
        rw [Function.update_self]
      exact congrArg (writeAt htx.area · bs) haddr
    · show bs.length = htx.tailAddr + bs.length
      rw [hb.tailAddr, Nat.zero_add]
    · show bs.length + 8 * (0 + 1) ≤ htx.size
      omega
  rw [HtxBuf.reserveNxblk, if_neg (Nat.not_lt.mpr hle), hb.head]
  refine ⟨_, rfl, ⟨0, Nat.le_refl 0, hpushed.shape hempty hd⟩, ?_, rfl, ?_, ?_⟩
  · have hcontent := hpushed.content hempty hd
    have hnone : ({ htx with head := some 0 } : HtxBuf).content = htx.content := by
      rw [content_blank hb.head, content, hslots]
      rfl
    rw [hnone] at hcontent
    exact hcontent
  · show bs.length = htx.data + bs.length
    rw [hb.data, Nat.zero_add]
  · rw [(hpushed.shape hempty hd).nbblks]
    exact Nat.le_add_left 1 _

variable (trash) in
/-- **A block is appended**, if the message has the space for it. -/
theorem Wf.reserveNxblk (hw : htx.Wf) (hd : Describes info bs)
    (hfree : bs.length + 8 ≤ htx.freeSpace) (hle : bs.length ≤ htx.freeDataSpace)
    (hzero : bs.length = 0 → 9 ≤ htx.freeSpace) :
    ∃ r, reserveNxblk trash htx bs.length = some r ∧ Stored htx r info bs := by
  rcases hw with hb | ⟨h, n, hlt, hs⟩
  · exact hb.reserveNxblk hd hfree hle hzero
  · exact hs.reserveNxblk hlt hd hfree hle hzero

end HtxBuf

end SmartHAProxy
