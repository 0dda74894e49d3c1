/-
What the two defragmentations do.

`htx_defrag` packs the used blocks: their payloads follow each other from address
0 on, and their descriptors from position 0 on.  The block whose word is altered
gets the space it asks for, and only the bytes it had are copied.
`htx_defrag_blks` moves the descriptors alone.

Main results: `Shape.defrag_none` and `Shape.defragBlks`, by `defragLoop_packed`.
-/
import SmartHAProxy.Htx.Shape

namespace SmartHAProxy

namespace HtxBuf

variable {htx htx' : HtxBuf} {blk : Option ℕ} {blkinfo h n : ℕ} {us : List ℕ}

/-! ### `htx_defrag` -/

/-- The word of the block at a position after the defragmentation. -/
def newInfo (htx : HtxBuf) (blk : Option ℕ) (blkinfo p : ℕ) : ℕ :=
  if blk = some p ∧ blkinfo ≠ 0 then blkinfo else (htx.blk p).info

def newSize (htx : HtxBuf) (blk : Option ℕ) (blkinfo p : ℕ) : ℕ :=
  (HtxDesc.mk 0 (htx.newInfo blk blkinfo p)).getBlksz

/-- Where the payload of number `i` of the blocks `us` begins. -/
def offs (htx : HtxBuf) (blk : Option ℕ) (blkinfo : ℕ) (us : List ℕ) (i : ℕ) : ℕ :=
  ((us.take i).map (htx.newSize blk blkinfo)).sum

/-- The loop went from `st` to `st'` and packed the blocks `us`. -/
structure Packed (htx : HtxBuf) (blk : Option ℕ) (blkinfo : ℕ) (us : List ℕ) (st st' : Defrag) :
    Prop where
  new : st'.new = st.new + us.length
  addr : st'.addr = st.addr + (us.map (htx.newSize blk blkinfo)).sum
  keepBlk : ∀ p < st.new, st'.blk p = st.blk p
  keepArea : ∀ x < st.addr, st'.area x = st.area x
  keepPos : (∀ p ∈ us, blk ≠ some p) → st'.blkpos = st.blkpos
  desc : ∀ i p, us[i]? = some p →
    st'.blk (st.new + i) = ⟨st.addr + htx.offs blk blkinfo us i, htx.newInfo blk blkinfo p⟩
  area : ∀ i p, us[i]? = some p →
    readAt st'.area (st.addr + htx.offs blk blkinfo us i) (htx.blk p).getBlksz = htx.payload p
  pos : us.Nodup → ∀ i p, us[i]? = some p → blk = some p → st'.blkpos = some (st.new + i)

theorem packed_nil (st : Defrag) : Packed htx blk blkinfo [] st st where
  new := rfl
  addr := rfl
  keepBlk _ _ := rfl
  keepArea _ _ := rfl
  keepPos _ := rfl
  desc i p hp := by cases hp
  area i p hp := by cases hp
  pos _ i p hp := by cases hp

@[simp] theorem offs_zero (us : List ℕ) : htx.offs blk blkinfo us 0 = 0 := rfl

@[simp] theorem offs_succ (p : ℕ) (us : List ℕ) (i : ℕ) : htx.offs blk blkinfo (p :: us) (i + 1) =
    htx.newSize blk blkinfo p + htx.offs blk blkinfo us i := rfl

/-- One block more in front. -/
theorem Packed.cons {p : ℕ} {st st₁ st' : Defrag}
    (hgrow : (htx.blk p).getBlksz ≤ htx.newSize blk blkinfo p)
    (h₁ : st₁.blk = Function.update st.blk st.new ⟨st.addr, htx.newInfo blk blkinfo p⟩)
    (h₂ : st₁.area = writeAt st.area st.addr (htx.payload p)) (h₃ : st₁.new = st.new + 1)
    (h₄ : st₁.addr = st.addr + htx.newSize blk blkinfo p)
    (h₅ : st₁.blkpos = if blk = some p then some st.new else st.blkpos)
    (h : Packed htx blk blkinfo us st₁ st') : Packed htx blk blkinfo (p :: us) st st' where
  new := by
    rw [h.new, h₃, List.length_cons]
    omega
  addr := by
    rw [h.addr, h₄, List.map_cons, List.sum_cons, Nat.add_assoc]
  keepBlk q hq := by
    rw [h.keepBlk q (by omega), h₁, Function.update_of_ne (Nat.ne_of_lt hq)]
  keepArea x hx := by
    rw [h.keepArea x (by omega), h₂, writeAt_outside _ (.inl hx)]
  keepPos hne := by
    rw [h.keepPos fun q hq => hne q (List.mem_cons_of_mem p hq), h₅,
      if_neg (hne p List.mem_cons_self)]
  desc i q hq := by
    rcases i with - | i
    · obtain rfl := Option.some.inj hq
      rw [Nat.add_zero, h.keepBlk _ (by omega), h₁, Function.update_self]
      rfl
    · have hdesc := h.desc i q hq
      rw [h₃, h₄] at hdesc
      rw [offs_succ, ← Nat.add_assoc st.addr, ← hdesc, Nat.add_assoc, Nat.add_comm 1]
  area i q hq := by
    rcases i with - | i
    · obtain rfl := Option.some.inj hq
      have hread : readAt st'.area st.addr (htx.blk p).getBlksz
          = readAt st₁.area st.addr (htx.blk p).getBlksz :=
        readAt_congr fun x hx => h.keepArea _ (by omega)
      rw [offs_zero, Nat.add_zero, hread, h₂, ← length_payload, readAt_writeAt]
    · rw [offs_succ, ← Nat.add_assoc, ← h₄]
      exact h.area i q hq
  pos hnodup i q hq hblk := by
    obtain ⟨hnot, hnodup'⟩ := List.nodup_cons.mp hnodup
    rcases i with - | i
    · obtain rfl := Option.some.inj hq
      -- the others are not the block
      rw [h.keepPos fun r hr heq => hnot (by rw [Option.some.inj (hblk.symm.trans heq)]; exact hr),
        h₅, if_pos hblk, Nat.add_zero]
    · rw [h.pos hnodup' i q hq hblk, h₃, Nat.add_assoc, Nat.add_comm 1]

variable (blk blkinfo) in
/-- **The loop** packs the used blocks among its positions. -/
theorem defragLoop_packed (n old : ℕ) (st : Defrag)
    (hgrow : ∀ p, (htx.blk p).getBlksz ≤ htx.newSize blk blkinfo p) :
    Packed htx blk blkinfo ((List.range' old n).filter fun p => (htx.blk p).used) st
      (defragLoop htx blk blkinfo n old st) := by
  induction n generalizing old st with
  | zero => exact packed_nil st
  | succ n ih =>
    rw [List.range'_succ, defragLoop]
    dsimp only
    by_cases hused : (htx.blk old).used = true
    · simp only [List.filter_cons, hused, if_true, Bool.true_eq_false, if_false]
      exact Packed.cons (hgrow old) rfl rfl rfl rfl rfl (ih (old + 1) _)
    · simp only [List.filter_cons, hused, if_true]
      exact ih (old + 1) st

/-! ### A packed message -/

theorem newInfo_none (p : ℕ) : htx.newInfo none 0 p = (htx.blk p).info :=
  if_neg fun h => h.2 rfl

theorem newSize_none (p : ℕ) : htx.newSize none 0 p = (htx.blk p).getBlksz := by
  rw [newSize, newInfo_none]
  rfl

variable (htx blk blkinfo) in
theorem offs_add_le (us : List ℕ) {i p : ℕ} (hp : us[i]? = some p) {j : ℕ} (hij : i < j) :
    htx.offs blk blkinfo us i + htx.newSize blk blkinfo p ≤ htx.offs blk blkinfo us j := by
  induction us generalizing i j with
  | nil => cases hp
  | cons q us ih =>
    obtain ⟨j, rfl⟩ : ∃ k, j = k + 1 := ⟨j - 1, by omega⟩
    rcases i with - | i
    · obtain rfl := Option.some.inj hp
      rw [offs_zero, offs_succ]
      omega
    · have hle := ih (i := i) (j := j) hp (by omega)
      rw [offs_succ, offs_succ]
      omega

variable (htx blk blkinfo) in
theorem offs_add_le_sum (us : List ℕ) {i p : ℕ} (hp : us[i]? = some p) :
    htx.offs blk blkinfo us i + htx.newSize blk blkinfo p
      ≤ (us.map (htx.newSize blk blkinfo)).sum := by
  have hle : htx.offs blk blkinfo us i + htx.newSize blk blkinfo p
      ≤ htx.offs blk blkinfo us us.length :=
    offs_add_le htx blk blkinfo us hp (List.getElem?_eq_some_iff.mp hp).1
  rw [offs, offs, List.take_length] at hle
  exact hle

theorem exists_index {p : ℕ} (hp : p ∈ htx.usedSlots) :
    ∃ i < htx.usedSlots.length, htx.usedSlots[i]? = some p := by
  obtain ⟨i, hi, rfl⟩ := List.mem_iff_getElem.mp hp
  exact ⟨i, hi, List.getElem?_eq_getElem hi⟩

/-- The blocks of `htx'` are those of `htx` at the positions `us`, from 0 on. -/
structure Renumbered (htx htx' : HtxBuf) : Prop where
  head : htx'.head = some 0
  tail : htx'.tail = posBefore htx.usedSlots.length
  size : htx'.size = htx.size
  data : htx'.data = htx.data
  info : ∀ i p, htx.usedSlots[i]? = some p → (htx'.blk i).info = (htx.blk p).info
  payload : ∀ i p, htx.usedSlots[i]? = some p → htx'.payload i = htx.payload p

theorem Renumbered.getBlksz (hr : Renumbered htx htx') {i p : ℕ}
    (hp : htx.usedSlots[i]? = some p) : (htx'.blk i).getBlksz = (htx.blk p).getBlksz := by
  show (HtxDesc.mk 0 (htx'.blk i).info).getBlksz = (HtxDesc.mk 0 (htx.blk p).info).getBlksz
  rw [hr.info i p hp]

theorem Renumbered.used (hr : Renumbered htx htx') {i p : ℕ} (hp : htx.usedSlots[i]? = some p) :
    (htx'.blk i).used = true := by
  have hused := (mem_usedSlots.mp (List.mem_of_getElem? hp)).2
  show (HtxDesc.mk 0 (htx'.blk i).info).used = true
  rw [hr.info i p hp]
  exact hused

theorem Renumbered.usedSlots (hr : Renumbered htx htx') :
    htx'.usedSlots = List.range htx.usedSlots.length := by
  rw [HtxBuf.usedSlots, slots_eq hr.head hr.tail, Nat.sub_zero, ← List.range_eq_range',
    List.filter_eq_self]
  intro i hi
  exact hr.used (List.getElem?_eq_getElem (List.mem_range.mp hi))

theorem map_range_getElem? {β : Type} (us : List ℕ) (f : ℕ → β) (g : ℕ → β)
    (h : ∀ i p, us[i]? = some p → g i = f p) : (List.range us.length).map g = us.map f := by
  refine List.ext_getElem (by simp) fun i hi hi' => ?_
  rw [List.getElem_map, List.getElem_map, List.getElem_range]
  rw [List.length_map] at hi'
  exact h i _ (List.getElem?_eq_getElem hi')

theorem Renumbered.content (hr : Renumbered htx htx') : htx'.content = htx.content := by
  rw [HtxBuf.content, hr.usedSlots]
  refine map_range_getElem? _ _ _ fun i p hp => ?_
  rw [entry, entry, hr.info i p hp, hr.payload i p hp]

theorem Renumbered.sizes (hr : Renumbered htx htx') :
    (htx'.usedSlots.map fun p => (htx'.blk p).getBlksz)
      = htx.usedSlots.map fun p => (htx.blk p).getBlksz := by
  rw [hr.usedSlots]
  exact map_range_getElem? _ _ _ fun i p hp => hr.getBlksz hp

/-- What the loop of `htx_defrag` leaves. -/
def defragEnd (trash : HtxTrash) (htx : HtxBuf) (blk : Option ℕ) (blkinfo h : ℕ) : Defrag :=
  defragLoop htx blk blkinfo htx.nbblks h ⟨(trash htx).blk, (trash htx).area, 0, 0, none, none⟩

theorem defrag_eq (trash : HtxTrash) (blk : Option ℕ) (blkinfo : ℕ) (hh : htx.head = some h) :
    defrag trash htx blk blkinfo = ((defragEnd trash htx blk blkinfo h).blkpos,
      { htx with
        data := (defragEnd trash htx blk blkinfo h).addr
        first := (defragEnd trash htx blk blkinfo h).first
        head := some 0
        tail := posBefore (defragEnd trash htx blk blkinfo h).new
        headAddr := 0, endAddr := 0
        tailAddr := (defragEnd trash htx blk blkinfo h).addr
        blk := (defragEnd trash htx blk blkinfo h).blk
        area := (defragEnd trash htx blk blkinfo h).area }) := by
  rw [defrag, hh]
  rfl

variable (blk blkinfo) in
theorem Shape.defragEnd_packed (hs : htx.Shape h n) (trash : HtxTrash)
    (hgrow : ∀ p, (htx.blk p).getBlksz ≤ htx.newSize blk blkinfo p) :
    Packed htx blk blkinfo htx.usedSlots ⟨(trash htx).blk, (trash htx).area, 0, 0, none, none⟩
      (defragEnd trash htx blk blkinfo h) := by
  have hpacked := defragLoop_packed blk blkinfo htx.nbblks h
    ⟨(trash htx).blk, (trash htx).area, 0, 0, none, none⟩ hgrow
  rw [usedSlots, hs.slots]
  rw [hs.nbblks] at hpacked
  rw [defragEnd, hs.nbblks]
  exact hpacked

/-- **`htx_defrag`**: the blocks are packed, with their content. -/
theorem Shape.defrag_none (hs : htx.Shape h n) (trash : HtxTrash) :
    Renumbered htx (defrag trash htx none 0).2 ∧
      (defrag trash htx none 0).2.Shape 0 htx.usedSlots.length ∧
      (defrag trash htx none 0).2.tailAddr = htx.data ∧
      (defrag trash htx none 0).2.headAddr = 0 := by
  have hpacked := hs.defragEnd_packed none 0 trash
    fun p => Nat.le_of_eq (newSize_none p).symm
  rw [defrag_eq trash none 0 hs.head]
  generalize defragEnd trash htx none 0 h = st at hpacked ⊢
  have hnew : st.new = htx.usedSlots.length := by rw [hpacked.new, Nat.zero_add]
  have hsum : (htx.usedSlots.map (htx.newSize none 0)).sum = htx.data := by
    rw [hs.data]
    exact congrArg List.sum (List.map_congr_left fun p _ => newSize_none p)
  have haddr : st.addr = htx.data := by rw [hpacked.addr, hsum, Nat.zero_add]
  have hdesc : ∀ i p, htx.usedSlots[i]? = some p →
      st.blk i = ⟨htx.offs none 0 htx.usedSlots i, (htx.blk p).info⟩ := by
    intro i p hp
    have hd := hpacked.desc i p hp
    rw [Nat.zero_add, Nat.zero_add, newInfo_none] at hd
    exact hd
  have hsize : ∀ i p, htx.usedSlots[i]? = some p → (st.blk i).getBlksz = (htx.blk p).getBlksz := by
    intro i p hp
    rw [hdesc i p hp]
    rfl
  have hren : Renumbered htx { htx with
      data := st.addr, first := st.first, head := some 0, tail := posBefore st.new
      headAddr := 0, endAddr := 0, tailAddr := st.addr, blk := st.blk, area := st.area } := by
    refine ⟨rfl, ?_, rfl, haddr, fun i p hp => ?_, fun i p hp => ?_⟩
    · rw [hnew]
    · show (st.blk i).info = _
      rw [hdesc i p hp]
    · have harea := hpacked.area i p hp
      rw [Nat.zero_add] at harea
      show readAt st.area (st.blk i).addr (st.blk i).getBlksz = _
      rw [hsize i p hp, hdesc i p hp]
      exact harea
  have hcount : htx.usedSlots.length ≤ n - h := hs.nbblks ▸ length_usedSlots_le htx
  have hspace := hs.usedSpace_le
  have hnext := hs.next
  -- the number of a position of the packed message stands for a used block
  have hat : ∀ i < htx.usedSlots.length, ∃ p, htx.usedSlots[i]? = some p ∧
      (st.blk i).addr = htx.offs none 0 htx.usedSlots i ∧
      (st.blk i).getBlksz = htx.newSize none 0 p := by
    intro i hi
    have hp := List.getElem?_eq_getElem hi
    refine ⟨_, hp, ?_, ?_⟩
    · rw [hdesc i _ hp]
    · rw [hsize i _ hp, newSize_none]
  refine ⟨hren, ⟨rfl, by rw [hnew], Nat.zero_le _, hs.size, hs.align, Nat.le_refl 0, ?_, ?_, ?_, ?_,
    ?_, ?_, ?_, ?_, ?_⟩, haddr, rfl⟩
  · show 0 < st.addr ∨ 0 = 0 ∧ st.addr = 0 ∧ 0 = 0
    omega
  · show st.addr + 8 * htx.usedSlots.length ≤ htx.size
    omega
  · show 8 * (htx.usedSlots.length + 1) ≤ htx.size
    omega
  · intro i _ hi _
    obtain ⟨p, hp, ha, hz⟩ := hat i hi
    have hle := offs_add_le_sum htx none 0 htx.usedSlots hp
    refine .inr ⟨Nat.zero_le _, ?_⟩
    show (st.blk i).addr + (st.blk i).getBlksz ≤ st.addr
    rw [ha, hz, haddr, ← hsum]
    exact hle
  · intro i j _ hi _ hj hne _ _
    obtain ⟨p, hp, ha, hz⟩ := hat i hi
    obtain ⟨q, hq, ha', hz'⟩ := hat j hj
    show CellsApart (st.blk i).addr (st.blk i).getBlksz (st.blk j).addr (st.blk j).getBlksz
    rw [ha, hz, ha', hz']
    rcases Nat.lt_or_gt_of_ne hne with hlt | hlt
    · exact .inl (offs_add_le htx none 0 _ hp hlt)
    · exact .inr (offs_add_le htx none 0 _ hq hlt)
  · intro i _ hi _
    obtain ⟨p, hp, ha, -⟩ := hat i hi
    have hle := offs_add_le_sum htx none 0 htx.usedSlots hp
    show (st.blk i).addr ≤ htx.size
    omega
  · intro i _ hi hunused
    have hused := hren.used (List.getElem?_eq_getElem hi)
    exact absurd (hunused.symm.trans hused) Bool.false_ne_true
  · rw [hren.sizes]
    exact haddr.trans hs.data
  · show st.addr + 0 ≤ 0 + st.addr
    omega

/-! ### `htx_defrag_blks` -/

/-- The loop moved the descriptors of `us` down to `new`. -/
structure Moved (us : List ℕ) (new : ℕ) (htx : HtxBuf) (r : ℕ × HtxBuf) : Prop where
  count : r.1 = new + us.length
  keep : ∀ p < new, r.2.blk p = htx.blk p
  desc : ∀ i p, us[i]? = some p → r.2.blk (new + i) = htx.blk p
  same : r.2 = { htx with first := r.2.first, blk := r.2.blk }

theorem defragBlksLoop_moved (htx : HtxBuf) (n pos new : ℕ) (hlt : new < pos) :
    Moved ((List.range' pos n).filter fun p => (htx.blk p).used) new htx
      (defragBlksLoop n pos new htx) := by
  induction n generalizing htx pos new with
  | zero =>
    exact ⟨rfl, fun _ _ => rfl, fun i p hp => (by cases hp), rfl⟩
  | succ n ih =>
    rw [List.range'_succ, defragBlksLoop, if_neg (Nat.ne_of_gt hlt)]
    by_cases hused : (htx.blk pos).used = true
    · simp only [List.filter_cons, hused, if_true, Bool.true_eq_false, if_false]
      generalize hmoved : ({ htx with
          first := if htx.first = some pos then some new else htx.first
          blk := Function.update htx.blk new (htx.blk pos) } : HtxBuf) = htx₁
      have hblk : htx₁.blk = Function.update htx.blk new (htx.blk pos) := by rw [← hmoved]
      -- the positions that are still to be read are above
      have habove : ∀ p, new < p → htx₁.blk p = htx.blk p := fun p hp => by
        rw [hblk, Function.update_of_ne (Nat.ne_of_gt hp)]
      have hfilter : (List.range' (pos + 1) n).filter (fun p => (htx.blk p).used)
          = (List.range' (pos + 1) n).filter fun p => (htx₁.blk p).used := by
        refine List.filter_congr fun p hp => ?_
        rw [habove p (by rw [List.mem_range'_1] at hp; omega)]
      have h := ih htx₁ (pos + 1) (new + 1) (by omega)
      rw [hfilter]
      refine ⟨?_, fun p hp => ?_, fun i p hp => ?_, ?_⟩
      · rw [h.count, List.length_cons]
        omega
      · rw [h.keep p (by omega), hblk, Function.update_of_ne (Nat.ne_of_lt hp)]
      · rcases i with - | i
        · obtain rfl := Option.some.inj hp
          show (defragBlksLoop n (pos + 1) (new + 1) htx₁).2.blk new = _
          rw [h.keep new (Nat.lt_succ_self new), hblk, Function.update_self]
        · rw [List.getElem?_cons_succ] at hp
          have hmem := List.mem_of_mem_filter (List.mem_of_getElem? hp)
          have hpos : pos + 1 ≤ p := (List.mem_range'_1.mp hmem).1
          rw [Nat.add_comm i, ← Nat.add_assoc, h.desc i p hp, habove p (by omega)]
      · rw [h.same, ← hmoved]
    · simp only [List.filter_cons, hused, if_true]
      exact ih htx (pos + 1) new (by omega)

/-- **`htx_defrag_blks`**: the descriptors from position 0 on, everything else as before. -/
theorem Shape.defragBlks (hs : htx.Shape h n) (hpos : 0 < h) :
    Renumbered htx htx.defragBlks ∧ htx.defragBlks.Shape 0 htx.usedSlots.length ∧
      htx.defragBlks.tailAddr = htx.tailAddr ∧
      ∀ i p, htx.usedSlots[i]? = some p → htx.defragBlks.blk i = htx.blk p := by
  have hmoved := defragBlksLoop_moved htx (n - h) h 0 hpos
  rw [← hs.slots] at hmoved
  have hrun : htx.defragBlks = { (defragBlksLoop (n - h) h 0 htx).2 with
      head := some 0, tail := posBefore (defragBlksLoop (n - h) h 0 htx).1 } := by
    rw [HtxBuf.defragBlks, hs.nbblks, hs.head]
    rfl
  rw [hrun]
  generalize defragBlksLoop (n - h) h 0 htx = r at hmoved ⊢
  obtain ⟨count, htx₁⟩ := r
  obtain ⟨hcount₀, -, hdesc₀, hsame₀⟩ := hmoved
  have hcount : count = htx.usedSlots.length := hcount₀.trans (Nat.zero_add _)
  have hdesc : ∀ i p, htx.usedSlots[i]? = some p → htx₁.blk i = htx.blk p := by
    intro i p hp
    have hd := hdesc₀ i p hp
    rw [Nat.zero_add] at hd
    exact hd
  have hsame : htx₁ = { htx with first := htx₁.first, blk := htx₁.blk } := hsame₀
  clear hcount₀ hdesc₀ hsame₀
  generalize htx₁.first = first at hsame
  generalize htx₁.blk = blk at hsame hdesc
  subst hsame
  -- the payloads have not moved, only the descriptors have
  have hren : Renumbered htx { htx with
      first := first, blk := blk, head := some 0, tail := posBefore count } := by
    refine ⟨rfl, congrArg posBefore hcount, rfl, rfl, fun i p hp => ?_, fun i p hp => ?_⟩
    · show (blk i).info = _
      rw [hdesc i p hp]
    · show readAt htx.area (blk i).addr (blk i).getBlksz = _
      rw [hdesc i p hp]
      rfl
  have hle : htx.usedSlots.length ≤ n - h := hs.nbblks ▸ length_usedSlots_le htx
  have hbelow := hs.below
  have hnext := hs.next
  have hat : ∀ i < htx.usedSlots.length, ∃ p, htx.usedSlots[i]? = some p ∧ blk i = htx.blk p ∧
      h ≤ p ∧ p < n := by
    intro i hi
    have hp := List.getElem?_eq_getElem hi
    exact ⟨_, hp, hdesc i _ hp, (hs.mem_usedSlots.mp (List.getElem_mem hi)).1⟩
  refine ⟨hren, ⟨rfl, congrArg posBefore hcount, Nat.zero_le _, hs.size, hs.align, hs.room,
    hs.sep.imp_right fun hsep => ⟨hsep.1, hsep.2.1, rfl⟩, ?_, ?_, ?_, ?_, ?_, ?_, ?_,
    hs.room_le⟩, rfl, hdesc⟩
  · show htx.tailAddr + 8 * htx.usedSlots.length ≤ htx.size
    omega
  · show 8 * (htx.usedSlots.length + 1) ≤ htx.size
    omega
  · intro i _ hi hlive
    obtain ⟨p, -, heq, hlow, hhigh⟩ := hat i hi
    have hlive : (blk i).Live := hlive
    rw [heq] at hlive
    show (blk i).addr + (blk i).getBlksz ≤ htx.headAddr ∨ htx.endAddr ≤ (blk i).addr ∧
      (blk i).addr + (blk i).getBlksz ≤ htx.tailAddr
    rw [heq]
    exact hs.inside p hlow hhigh hlive
  · intro i j _ hi _ hj hne hlive hlive'
    obtain ⟨p, hp, heq, hlow, hhigh⟩ := hat i hi
    obtain ⟨q, hq, heq', hlow', hhigh'⟩ := hat j hj
    have hlive : (blk i).Live := hlive
    have hlive' : (blk j).Live := hlive'
    rw [heq] at hlive
    rw [heq'] at hlive'
    show CellsApart (blk i).addr (blk i).getBlksz (blk j).addr (blk j).getBlksz
    rw [heq, heq']
    refine hs.apart p q hlow hhigh hlow' hhigh' (fun hpq => hne ?_) hlive hlive'
    exact (List.getElem?_inj hi (usedSlots_nodup htx)).mp (by rw [hp, hq, hpq])
  · intro i _ hi hused
    obtain ⟨p, -, heq, hlow, hhigh⟩ := hat i hi
    have hused : (blk i).used = true := hused
    rw [heq] at hused
    show (blk i).addr ≤ htx.size
    rw [heq]
    exact hs.reach p hlow hhigh hused
  · intro i _ hi hunused
    exact absurd (hunused.symm.trans (hren.used (List.getElem?_eq_getElem hi))) Bool.false_ne_true
  · rw [hren.sizes]
    exact hs.data

end HtxBuf

end SmartHAProxy
