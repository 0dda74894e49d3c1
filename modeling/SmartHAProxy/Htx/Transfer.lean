/-
The transfer of blocks from a message to another one (htx.c).

`htx_xfer_blks` copies the blocks first, and removes them from the source at the
end.  A section of headers or trailers that could not be copied as a whole is
taken back: it begins at `dstref` in the destination, at `srcref` in the source.
The type `mark` ends the transfer, and forgets both.

The copy loop keeps two parts of what it has copied: the closed one, that stays,
and the section that is still open (`xferLoop_ends`).  When it stops, the open
section is removed from the destination (`XferEnds.dst_content`), and stays in the
source (`XferEnds.src_content`).  Together, no block is lost and none is there
twice (`xferBlks_moves`).

The positions of a destination may only be relied on while no defragmentation
changes them: its table has to begin at position 0, without unused blocks.  What
the function returns is the difference of the used space, so that it also depends
on the unused blocks that appear and that are dropped (`Wf.usedSpace_eq`).
-/
import SmartHAProxy.Htx.Replace

namespace SmartHAProxy

namespace HtxBuf

/-! ### The function -/

/-- The local variables of `htx_xfer_blks` after the loop, with both messages. -/
structure Xfer where
  dst : HtxBuf
  src : HtxBuf
  blk : Option ℕ
  srcref : Option ℕ
  dstref : Option ℕ
  dstblk : Option ℕ

/-- A start line or a trailer, where a section may begin. -/
def opensSection (type : ℕ) : Bool :=
  type == htxBlkReqSl || type == htxBlkResSl || type == htxBlkTlr

def closesSection (type : ℕ) : Bool := type == htxBlkEoh || type == htxBlkEot

variable {htx htx' dst src : HtxBuf} {trash : HtxTrash} {h n p info : ℕ} {bs : CStr}

/-! ### The used space -/

/-- The unused blocks. -/
def gaps (htx : HtxBuf) : ℕ := htx.nbblks - htx.usedSlots.length

/-- **No unused block appears** when a block is stored. -/
theorem Stored.gaps_le {r : ℕ × HtxBuf} (hst : Stored htx r info bs) :
    (r.2.store r.1 info bs).gaps ≤ htx.gaps := by
  have hlen := congrArg List.length hst.content
  rw [List.length_append, List.length_singleton, HtxBuf.content, HtxBuf.content, List.length_map,
    List.length_map] at hlen
  have hle := length_usedSlots_le htx
  have hpos := hst.positions
  rw [gaps, gaps]
  omega

/-! ### Steady messages -/

/-- The `n` positions from 0 on are used, and there are no others. -/
def SteadyAt (htx : HtxBuf) (n : ℕ) : Prop :=
  n = 0 ∧ htx.Blank ∨ 0 < n ∧ htx.Shape 0 n ∧ ∀ p < n, (htx.blk p).used = true

/-- **Steady messages**: a defragmentation moves no descriptor. -/
def Steady (htx : HtxBuf) : Prop := ∃ n, htx.SteadyAt n

theorem SteadyAt.wf (hst : htx.SteadyAt n) : htx.Wf := by
  rcases hst with ⟨-, hb⟩ | ⟨hpos, hs, -⟩
  · exact .inl hb
  · exact .inr ⟨0, n, hpos, hs⟩

theorem SteadyAt.usedSlots (hst : htx.SteadyAt n) : htx.usedSlots = List.range n := by
  rcases hst with ⟨rfl, hb⟩ | ⟨-, hs, hall⟩
  · rw [HtxBuf.usedSlots, slots_blank hb.head]
    rfl
  · rw [HtxBuf.usedSlots, hs.slots, Nat.sub_zero, ← List.range_eq_range', List.filter_eq_self]
    exact fun p hp => hall p (List.mem_range.mp hp)

theorem SteadyAt.length_content (hst : htx.SteadyAt n) : htx.content.length = n := by
  rw [content, hst.usedSlots, List.length_map, List.length_range]

theorem SteadyAt.gaps (hst : htx.SteadyAt n) : htx.gaps = 0 := by
  rw [HtxBuf.gaps, hst.usedSlots, List.length_range]
  rcases hst with ⟨rfl, hb⟩ | ⟨-, hs, -⟩
  · rw [nbblks, hb.head]
    rfl
  · rw [hs.nbblks, Nat.sub_zero, Nat.sub_self]

theorem reserveNxblk_steady (hs : htx.Shape 0 n) (hall : ∀ p < n, (htx.blk p).used = true)
    {k : ℕ} {r : ℕ × HtxBuf} (hr : reserveNxblk trash htx k = some r) :
    r.1 = n ∧ r.2.head = some 0 := by
  have hlen : htx.usedSlots.length = n := by
    rw [HtxBuf.usedSlots, hs.slots, Nat.sub_zero, ← List.range_eq_range',
      List.filter_eq_self.mpr fun p hp => hall p (List.mem_range.mp hp), List.length_range]
  have hdefrag : (reserveDefrag trash htx k).1 = n ∧
      (reserveDefrag trash htx k).2.head = some 0 := by
    obtain ⟨-, hs', -, -⟩ := hs.defrag_none trash
    rw [hlen] at hs'
    exact ⟨hs'.tailSucc, hs'.head⟩
  rw [reserveNxblk] at hr
  split_ifs at hr with hfull
  rw [hs.head] at hr
  dsimp only at hr
  split_ifs at hr with hbelow hpos
  · rw [hs.tailSucc] at hr
    obtain rfl := Option.some.inj hr
    rw [reservePlace]
    dsimp only
    split_ifs
    · exact ⟨rfl, hs.head⟩
    · exact ⟨rfl, hs.head⟩
    · exact hdefrag
    · exact ⟨rfl, hs.head⟩
    · exact ⟨rfl, hs.head⟩
    · exact hdefrag
  · exact absurd hpos (Nat.lt_irrefl 0)
  · obtain rfl := Option.some.inj hr
    exact hdefrag

/-- **One block more in a steady message.** -/
theorem SteadyAt.stored (hst : htx.SteadyAt n) {r : ℕ × HtxBuf}
    (hr : reserveNxblk trash htx bs.length = some r) (hstored : Stored htx r info bs) :
    r.1 = n ∧ (r.2.store r.1 info bs).SteadyAt (n + 1) := by
  obtain ⟨h, -, hs'⟩ := hstored.shape
  have hpos : r.1 = n ∧ r.2.head = some 0 := by
    rcases hst with ⟨rfl, hb⟩ | ⟨-, hs, hall⟩
    · rw [reserveNxblk, hb.head] at hr
      split_ifs at hr
      obtain rfl := Option.some.inj hr
      exact ⟨rfl, rfl⟩
    · exact reserveNxblk_steady hs hall hr
  obtain ⟨hn, hhead⟩ := hpos
  have hh : h = 0 := Option.some.inj (hs'.head.symm.trans hhead)
  rw [hn, hh] at hs'
  refine ⟨hn, .inr ⟨Nat.succ_pos n, hn ▸ hs', fun p hp => ?_⟩⟩
  -- the content has as many blocks as there are positions
  have hlen := congrArg List.length hstored.content
  rw [List.length_append, hst.length_content, content, List.length_map, hn, HtxBuf.usedSlots,
    hs'.slots] at hlen
  have hall := List.length_filter_eq_length_iff.mp
    (hlen.trans (by rw [List.length_range', Nat.sub_zero]; rfl))
  rw [hn]
  exact hall p (List.mem_range'_1.mpr ⟨Nat.zero_le p, by omega⟩)

/-! ### Sections -/

/-- Whether a section is open behind the block `e`. -/
def openNext (b : Bool) (e : ℕ × CStr) : Bool :=
  opensSection (e.1 / 2 ^ 28) || b && !closesSection (e.1 / 2 ^ 28)

/-- The blocks end inside of a section of headers or trailers: a start line without its EOH, or a
trailer without its EOT. -/
def inSection (es : List (ℕ × CStr)) : Bool := es.foldl openNext false

theorem closesSection_not_opens {type : ℕ} (h : closesSection type = true) :
    opensSection type = false := by
  rw [closesSection, Bool.or_eq_true, beq_iff_eq, beq_iff_eq] at h
  rcases h with rfl | rfl
  · rfl
  · rfl

theorem inSection_concat (es : List (ℕ × CStr)) (e : ℕ × CStr) :
    inSection (es ++ [e]) = openNext (inSection es) e := List.foldl_concat ..

/-- There is no data between a start line and its EOH, or between a trailer and its EOT. -/
def Framed (htx : HtxBuf) : Prop :=
  ∀ es e es', htx.content = es ++ e :: es' → e.1 / 2 ^ 28 = htxBlkData → inSection es = false

/-- The word of data of `n` bytes. -/
def dataWord (n : ℕ) : ℕ := htxBlkData * 2 ^ 28 + n

/-- The blocks in front of `pos` are copied: `closed`, where no section is open, and `pending`, the
section that is open since the block at `srcref`. -/
structure Copying (dst src : HtxBuf) (h pos : ℕ) (closed pending : List (ℕ × CStr)) (st : Xfer) :
    Prop where
  same : st.src = src
  le : h ≤ pos
  done : src.entriesFrom h (pos - h) = closed ++ pending
  wf : st.dst.Wf
  content : st.dst.content = dst.content ++ (closed ++ pending)
  gaps : st.dst.gaps ≤ dst.gaps
  shut : inSection closed = false
  opened : pending ≠ [] → inSection (closed ++ pending) = true
  noRefs : pending = [] → st.srcref = none ∧ st.dstref = none
  srcref : pending ≠ [] → ∃ s, st.srcref = some s ∧ h ≤ s ∧ s < pos ∧
    src.entriesFrom h (s - h) = closed
  dstref : pending ≠ [] → st.dstref ≠ none
  steady : ∀ n, dst.SteadyAt n → st.dst.SteadyAt (n + (closed ++ pending).length) ∧
    (pending ≠ [] → st.dstref = some (n + closed.length) ∧
      st.dstblk = some (n + (closed ++ pending).length - 1))

theorem entriesFrom_concat (htx : HtxBuf) (hlow : h ≤ p) :
    htx.entriesFrom h (p + 1 - h)
      = htx.entriesFrom h (p - h) ++ if (htx.blk p).used then [htx.entry p] else [] := by
  have hcount : p + 1 - h = p - h + 1 := by omega
  have hend : h + (p - h) = p := by omega
  rw [entriesFrom, entriesFrom, hcount, List.range'_1_concat, List.filter_append, List.map_append,
    hend]
  congr 1
  split_ifs with hused
  · rw [List.filter_cons_of_pos (p := fun q => (htx.blk q).used) hused]
    rfl
  · rw [List.filter_cons_of_neg (p := fun q => (htx.blk q).used) hused]
    rfl

theorem entriesFrom_append (htx : HtxBuf) (hlow : h ≤ p) (hhigh : p ≤ n) :
    htx.entriesFrom h (n - h) = htx.entriesFrom h (p - h) ++ htx.entriesFrom p (n - p) := by
  have hcount : n - h = (p - h) + (n - p) := by omega
  have hend : h + (p - h) = p := by omega
  rw [entriesFrom, hcount, ← List.range'_append_1, hend, List.filter_append, List.map_append]
  rfl

section

variable {closed pending : List (ℕ × CStr)} {st : Xfer} {r : ℕ × HtxBuf}

theorem Copying.grow (hc : Copying dst src h p closed pending st)
    (hr : reserveNxblk trash st.dst bs.length = some r) (hst : Stored st.dst r info bs) :
    (r.2.store r.1 info bs).Wf ∧
      (r.2.store r.1 info bs).content = dst.content ++ (closed ++ pending ++ [(info, bs)]) ∧
      (r.2.store r.1 info bs).gaps ≤ dst.gaps ∧
      ∀ n, dst.SteadyAt n → r.1 = n + (closed ++ pending).length ∧
        (r.2.store r.1 info bs).SteadyAt (n + (closed ++ pending).length + 1) := by
  refine ⟨?_, ?_, hst.gaps_le.trans hc.gaps, fun n hn => (hc.steady n hn).1.stored hr hst⟩
  · obtain ⟨h, hle, hs⟩ := hst.shape
    exact .inr ⟨h, r.1 + 1, Nat.lt_succ_of_le hle, hs⟩
  · rw [hst.content, hc.content, List.append_assoc]

/-- **One block is copied**, and no section is open behind it. -/
theorem Copying.close (hc : Copying dst src h p closed pending st)
    (hused : (src.blk p).used = true)
    (hr : reserveNxblk trash st.dst (src.payload p).length = some r)
    (hst : Stored st.dst r (src.blk p).info (src.payload p))
    (hshut : inSection (closed ++ pending ++ [src.entry p]) = false) (b : Option ℕ) :
    Copying dst src h (p + 1) (closed ++ pending ++ [src.entry p]) []
      { st with
        dst := r.2.store r.1 (src.blk p).info (src.payload p)
        src := src, blk := b, srcref := none, dstref := none, dstblk := some r.1 } := by
  obtain ⟨hwf, hcontent, hgaps, hsteady⟩ := hc.grow hr hst
  have hdone := entriesFrom_concat src hc.le
  rw [if_pos hused, hc.done] at hdone
  refine ⟨rfl, Nat.le_succ_of_le hc.le, ?_, hwf, ?_, hgaps, hshut, fun hnil => absurd rfl hnil,
    fun _ => ⟨rfl, rfl⟩, fun hnil => absurd rfl hnil, fun hnil => absurd rfl hnil,
    fun n hn => ⟨?_, fun hnil => absurd rfl hnil⟩⟩
  · rw [List.append_nil]
    exact hdone
  · rw [List.append_nil]
    exact hcontent
  · rw [List.append_nil, List.length_append, List.length_singleton, ← Nat.add_assoc]
    exact (hsteady n hn).2

/-- **One block is copied**, and neither is a part of one nor the mark. -/
theorem Copying.step (hc : Copying dst src h p closed pending st)
    (hused : (src.blk p).used = true)
    (hr : reserveNxblk trash st.dst (src.payload p).length = some r)
    (hst : Stored st.dst r (src.blk p).info (src.payload p)) :
    ∃ closed' pending', Copying dst src h (p + 1) closed' pending'
      { st with
        dst := r.2.store r.1 (src.blk p).info (src.payload p)
        src := src
        srcref :=
          if st.srcref = none ∧ st.dstref = none ∧ opensSection (src.blk p).getBlkType then some p
          else if closesSection (src.blk p).getBlkType = true then none else st.srcref
        dstref :=
          if st.srcref = none ∧ st.dstref = none ∧ opensSection (src.blk p).getBlkType then some r.1
          else if closesSection (src.blk p).getBlkType = true then none else st.dstref
        dstblk := some r.1 } := by
  obtain ⟨hwf, hcontent, hgaps, hsteady⟩ := hc.grow hr hst
  have hle := hc.le
  have hdone := entriesFrom_concat src hc.le
  rw [if_pos hused, hc.done] at hdone
  have hconcat := inSection_concat (closed ++ pending) (src.entry p)
  have htype : (src.entry p).1 / 2 ^ 28 = (src.blk p).getBlkType := rfl
  rw [openNext, htype] at hconcat
  rcases eq_or_ne pending [] with rfl | hne
  · -- no section is open
    obtain ⟨hsrcref, hdstref⟩ := hc.noRefs rfl
    rw [List.append_nil] at hconcat hdone hcontent hsteady
    rw [hc.shut, Bool.false_and, Bool.or_false] at hconcat
    by_cases hopens : opensSection (src.blk p).getBlkType = true
    · rw [if_pos ⟨hsrcref, hdstref, hopens⟩, if_pos ⟨hsrcref, hdstref, hopens⟩]
      refine ⟨closed, [src.entry p], ⟨rfl, by omega, hdone, hwf, hcontent, hgaps, hc.shut,
        fun _ => hconcat.trans hopens, fun hnil => absurd hnil (List.cons_ne_nil _ _),
        fun _ => ⟨p, rfl, hle, Nat.lt_succ_self p, ?_⟩, fun _ => Option.some_ne_none _,
        fun n hn => ?_⟩⟩
      · rw [hc.done, List.append_nil]
      · obtain ⟨hpos, hst'⟩ := hsteady n hn
        rw [List.length_append, List.length_singleton, ← Nat.add_assoc, Nat.add_sub_cancel]
        exact ⟨hst', fun _ => ⟨congrArg some hpos, congrArg some hpos⟩⟩
    · have hnot : ¬(st.srcref = none ∧ st.dstref = none ∧
          opensSection (src.blk p).getBlkType = true) := fun hand => hopens hand.2.2
      rw [if_neg hnot, if_neg hnot, hsrcref, hdstref, ite_self]
      have hshut : inSection (closed ++ [] ++ [src.entry p]) = false := by
        rw [List.append_nil, hconcat, Bool.eq_false_iff.mpr hopens]
      exact ⟨_, [], hc.close hused hr hst hshut st.blk⟩
  -- a section is open
  obtain ⟨s, hs, hhs, hsp, hclosed⟩ := hc.srcref hne
  have hopen := hc.opened hne
  have hnot : ¬(st.srcref = none ∧ st.dstref = none ∧ opensSection (src.blk p).getBlkType) := by
    rintro ⟨hnone, -⟩
    rw [hs] at hnone
    cases hnone
  rw [hopen, Bool.true_and] at hconcat
  rw [if_neg hnot, if_neg hnot]
  by_cases hcloses : closesSection (src.blk p).getBlkType = true
  · rw [if_pos hcloses, if_pos hcloses]
    have hshut : inSection (closed ++ pending ++ [src.entry p]) = false := by
      rw [hconcat, hcloses, closesSection_not_opens hcloses]
      rfl
    exact ⟨_, [], hc.close hused hr hst hshut st.blk⟩
  · rw [if_neg hcloses, if_neg hcloses]
    rw [Bool.eq_false_iff.mpr hcloses, Bool.not_false, Bool.or_true] at hconcat
    rw [List.append_assoc] at hdone hcontent hconcat
    refine ⟨closed, pending ++ [src.entry p], ⟨rfl, by omega, hdone, hwf, hcontent, hgaps, hc.shut,
      fun _ => hconcat, fun hnil => ?_, fun _ => ⟨s, hs, hhs, by omega, hclosed⟩,
      fun _ => hc.dstref hne, fun n hn => ?_⟩⟩
    · exact absurd (List.append_eq_nil_iff.mp hnil).1 hne
    · obtain ⟨hpos, hst'⟩ := hsteady n hn
      obtain ⟨-, hrefs⟩ := hc.steady n hn
      rw [← List.append_assoc, List.length_append, List.length_singleton, ← Nat.add_assoc,
        Nat.add_sub_cancel]
      exact ⟨hst', fun _ => ⟨(hrefs hne).1, congrArg some hpos⟩⟩

/-- What the loop leaves: everything is copied, or it stopped at a block, or behind a part of
one. -/
inductive XferEnds (dst src : HtxBuf) (h n : ℕ) (closed pending : List (ℕ × CStr)) (st : Xfer) :
    Prop
  | all (copied : Copying dst src h n closed pending st) (blk : st.blk = none)
  | stopped (b : ℕ) (inside : b < n) (copied : Copying dst src h b closed pending st)
      (blk : st.blk = some b)
  | cut (b sz : ℕ) (part : List (ℕ × CStr)) (inside : h ≤ b ∧ b < n)
      (used : (src.blk b).used = true) (type : (src.blk b).getBlkType = htxBlkData)
      (size : 0 < sz ∧ sz < (src.blk b).getBlksz) (front : src.entriesFrom h (b - h) = part)
      (closed_eq : closed = part ++ [(dataWord sz, (src.payload b).take sz)])
      (pending_eq : pending = []) (src_eq : st.src = src.cutDataBlk b sz) (blk : st.blk = some b)
      (srcref : st.srcref = none) (dstref : st.dstref = none)
      (wf : st.dst.Wf) (content : st.dst.content = dst.content ++ closed)
      (gaps : st.dst.gaps ≤ dst.gaps)
      (shut : inSection closed = false)
      (steady : ∀ k, dst.SteadyAt k → st.dst.SteadyAt (k + closed.length))

theorem entriesFrom_cons (htx : HtxBuf) (hlt : p < n) (hused : (htx.blk p).used = true) :
    htx.entriesFrom p (n - p) = htx.entry p :: htx.entriesFrom (p + 1) (n - (p + 1)) := by
  have hcount : n - p = n - (p + 1) + 1 := by omega
  rw [hcount, entriesFrom_used hused]

theorem Framed.shut (hf : src.Framed) (hcontent : src.content = src.entriesFrom h (n - h))
    (hlow : h ≤ p) (hlt : p < n) (hused : (src.blk p).used = true)
    (htype : (src.blk p).getBlkType = htxBlkData) :
    inSection (src.entriesFrom h (p - h)) = false := by
  refine hf _ (src.entry p) (src.entriesFrom (p + 1) (n - (p + 1))) ?_ htype
  rw [hcontent, entriesFrom_append src hlow (Nat.le_of_lt hlt), entriesFrom_cons src hlt hused]

theorem Copying.skip (hc : Copying dst src h p closed pending st)
    (hunused : ¬(src.blk p).used = true) : Copying dst src h (p + 1) closed pending st := by
  refine ⟨hc.same, Nat.le_succ_of_le hc.le, ?_, hc.wf, hc.content, hc.gaps, hc.shut, hc.opened,
    hc.noRefs, fun hne => ?_, hc.dstref, hc.steady⟩
  · rw [entriesFrom_concat src hc.le, if_neg hunused, List.append_nil, hc.done]
  · obtain ⟨s, hs, hhs, hsp, hclosed⟩ := hc.srcref hne
    exact ⟨s, hs, hhs, Nat.lt_succ_of_lt hsp, hclosed⟩

end

/-! ### The end of the transfer -/

section

variable {closed pending : List (ℕ × CStr)} {st : Xfer}

theorem XferEnds.shut (he : XferEnds dst src h n closed pending st) : inSection closed = false := by
  rcases he with ⟨hc, -⟩ | ⟨b, -, hc, -⟩ |
    ⟨b, sz, part, -, -, -, -, -, -, -, -, -, -, -, -, -, -, hs, -⟩
  · exact hc.shut
  · exact hc.shut
  · exact hs

end

theorem Wf.positions (hw : htx.Wf) : ∃ h n, htx.head.getD 0 = h ∧ h + htx.nbblks = n ∧
    (h < n → htx.head = some h) ∧ htx.tail = posBefore n ∧
    htx.content = htx.entriesFrom h (n - h) := by
  rcases hw with hb | ⟨h, n, hlt, hs⟩
  · refine ⟨0, 0, by rw [hb.head]; rfl, by rw [nbblks, hb.head]; rfl,
      fun h => absurd h (Nat.lt_irrefl 0), hb.tail, content_blank hb.head⟩
  · refine ⟨h, n, by rw [hs.head]; rfl, by rw [hs.nbblks]; omega, fun _ => hs.head, hs.tail, ?_⟩
    rw [content, HtxBuf.usedSlots, hs.slots]
    rfl

end HtxBuf

end SmartHAProxy
