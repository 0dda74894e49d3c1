/-
What `htx_replace_blk_value` and `htx_replace_header` leave.

Whichever room is found, the block has the new value and the others are as
before, provided that the new lengths fit the fields of the descriptor's word:
8 bits for a name, 20 for the value beside it, 28 for data.  `htx_add_header`
and `htx_add_trailer` check them, and these functions do not.

Main results: `setBlkValueLen_fits`, `Shape.replaceBlkValue` and
`Shape.replaceHeader`, one for each strategy, and `edition_exact_iff`.
-/
import SmartHAProxy.Htx.Append
import SmartHAProxy.Htx.Edit

namespace SmartHAProxy

namespace HtxDesc

variable {d : HtxDesc} {v : ℕ}

def Editable (d : HtxDesc) : Prop :=
  d.getBlkType = htxBlkHdr ∨ d.getBlkType = htxBlkTlr ∨ d.getBlkType = htxBlkData

/-- A value of `v` bytes fits its field. -/
def Fits (d : HtxDesc) (v : ℕ) : Prop := v < if d.named then 2 ^ 20 else 2 ^ 28

theorem named_congr {d d' : HtxDesc} (h : d'.getBlkType = d.getBlkType) : d'.named = d.named := by
  rw [named, named, h]

theorem Fits.lt (h : d.Fits v) : v < 2 ^ 28 := by
  rw [Fits] at h
  split_ifs at h
  · omega
  · exact h

theorem fits_valueLen (d : HtxDesc) : d.Fits d.valueLen := by
  rw [Fits, valueLen]
  split_ifs
  · exact Nat.mod_lt _ (by decide)
  · exact Nat.mod_lt _ (by decide)

theorem nlen_lt (d : HtxDesc) : d.nlen < 2 ^ 8 := by
  rw [nlen]
  split_ifs
  · exact Nat.mod_lt _ (by decide)
  · decide

theorem word_named {t n : ℕ} (a : ℕ) (ht : t = htxBlkHdr ∨ t = htxBlkTlr) (hv : v < 2 ^ 20)
    (hn : n < 2 ^ 8) {info : ℕ} (hinfo : info = (t * 2 ^ 28 + v * 2 ^ 8 + n) % 2 ^ 32) :
    (HtxDesc.mk a info).getBlkType = t ∧ (HtxDesc.mk a info).nlen = n ∧
      (HtxDesc.mk a info).valueLen = v ∧ info ≠ 0 := by
  have ht' : t = 2 ∨ t = 5 := ht
  have hword : info = t * 2 ^ 28 + v * 2 ^ 8 + n := by omega
  have htype : (HtxDesc.mk a info).getBlkType = t := by
    show info / 2 ^ 28 = t
    omega
  have hnamed : (HtxDesc.mk a info).named = true := by
    rw [named, htype]
    rcases ht with rfl | rfl
    · rfl
    · rfl
  refine ⟨htype, ?_, ?_, by omega⟩
  · rw [nlen, if_pos hnamed]
    show info % 2 ^ 8 = n
    omega
  · rw [valueLen, if_pos hnamed]
    show info / 2 ^ 8 % 2 ^ 20 = v
    omega

theorem word_data (a : ℕ) (hv : v < 2 ^ 28) {info : ℕ}
    (hinfo : info = (htxBlkData * 2 ^ 28 + v) % 2 ^ 32) :
    (HtxDesc.mk a info).getBlkType = htxBlkData ∧ (HtxDesc.mk a info).nlen = 0 ∧
      (HtxDesc.mk a info).valueLen = v ∧ info ≠ 0 := by
  have hword : info = 4 * 2 ^ 28 + v := by
    rw [hinfo, htxBlkData]
    omega
  have htype : (HtxDesc.mk a info).getBlkType = htxBlkData := by
    show info / 2 ^ 28 = 4
    omega
  have hnamed : (HtxDesc.mk a info).named = false := by
    rw [named, htype]
    rfl
  refine ⟨htype, ?_, ?_, by omega⟩
  · rw [nlen, hnamed]
    rfl
  · rw [valueLen, hnamed]
    show info % 2 ^ 28 = v
    omega

theorem setBlkValueLen_addr (d : HtxDesc) (a v : ℕ) :
    HtxDesc.setBlkValueLen { d with addr := a } v = ⟨a, (d.setBlkValueLen v).info⟩ := by
  have hnamed : HtxDesc.named { d with addr := a } = d.named := rfl
  have htype : HtxDesc.getBlkType { d with addr := a } = d.getBlkType := rfl
  rw [setBlkValueLen, setBlkValueLen, hnamed, htype]
  split_ifs
  · rfl
  · rfl
  · rfl

/-- A word with a new length of the value, the type and the name as before. -/
structure Relengthened (d : HtxDesc) (info v : ℕ) : Prop where
  type : (HtxDesc.mk 0 info).getBlkType = d.getBlkType
  nlen : (HtxDesc.mk 0 info).nlen = d.nlen
  valueLen : (HtxDesc.mk 0 info).valueLen = v
  ne : info ≠ 0

/-- **`htx_set_blk_value_len`** with a length that fits. -/
theorem setBlkValueLen_fits (hedit : d.Editable) (hv : d.Fits v) :
    (d.setBlkValueLen v).addr = d.addr ∧ Relengthened d (d.setBlkValueLen v).info v := by
  rw [Fits] at hv
  rw [setBlkValueLen]
  by_cases hnamed : d.named = true
  · rw [if_pos hnamed] at hv ⊢
    have htype : d.getBlkType = htxBlkHdr ∨ d.getBlkType = htxBlkTlr := by
      rw [named, Bool.or_eq_true, beq_iff_eq, beq_iff_eq] at hnamed
      exact hnamed
    obtain ⟨h₁, h₂, h₃, h₄⟩ :=
      word_named 0 htype hv (Nat.mod_lt d.info (by decide : 0 < 2 ^ 8)) rfl
    refine ⟨rfl, h₁, h₂.trans ?_, h₃, h₄⟩
    rw [HtxDesc.nlen, if_pos hnamed, nameLen]
  · rw [if_neg hnamed] at hv ⊢
    have htype : d.getBlkType = htxBlkData := by
      rw [named, Bool.or_eq_true, beq_iff_eq, beq_iff_eq, not_or] at hnamed
      rcases hedit with h | h | h
      · exact absurd h hnamed.1
      · exact absurd h hnamed.2
      · exact h
    rw [if_pos (.inr (.inr htype))]
    have hword : (d.getBlkType * 2 ^ 28 + v) % 2 ^ 32 = (htxBlkData * 2 ^ 28 + v) % 2 ^ 32 := by
      rw [htype]
    obtain ⟨h₁, h₂, h₃, h₄⟩ := word_data 0 hv hword
    refine ⟨rfl, h₁.trans htype.symm, h₂.trans ?_, h₃, h₄⟩
    rw [HtxDesc.nlen, if_neg hnamed]

end HtxDesc

namespace HtxBuf

variable {htx htx' htx₁ : HtxBuf} {trash : HtxTrash} {h n p q a k i info : ℕ}

/-! ### One block is edited -/

/-- The block `q` of `htx'` stands where the block `p` was, and the other blocks are the same. -/
def Edited (htx htx' : HtxBuf) (p q : ℕ) : Prop :=
  ∃ i, htx.usedSlots[i]? = some p ∧ htx'.usedSlots[i]? = some q ∧
    htx'.content = htx.content.set i (htx'.entry q)

theorem edited_of_index (hp : htx.usedSlots[i]? = some p) (hq : htx'.usedSlots[i]? = some q)
    (hlen : htx'.usedSlots.length = htx.usedSlots.length)
    (hother : ∀ j x y, j ≠ i → htx.usedSlots[j]? = some x → htx'.usedSlots[j]? = some y →
      htx'.entry y = htx.entry x) : Edited htx htx' p q := by
  refine ⟨i, hp, hq, List.ext_getElem? fun j => ?_⟩
  rw [content, List.getElem?_map, List.getElem?_set, content, List.length_map]
  by_cases hij : i = j
  · subst hij
    obtain ⟨hi, -⟩ := List.getElem?_eq_some_iff.mp hp
    rw [hq, if_pos rfl, if_pos hi]
    rfl
  rw [if_neg hij, List.getElem?_map]
  rcases Nat.lt_or_ge j htx.usedSlots.length with hj | hj
  · have hx := List.getElem?_eq_getElem hj
    have hy := List.getElem?_eq_getElem (hlen.symm ▸ hj : j < htx'.usedSlots.length)
    rw [hx, hy]
    exact congrArg some (hother j _ _ (Ne.symm hij) hx hy)
  · rw [List.getElem?_eq_none hj, List.getElem?_eq_none (hlen.symm ▸ hj)]
    rfl

/-- What was written in the place that `htx_prepare_blk_expansion` found. -/
theorem Expanded.edited (hs : htx.Shape h n) (hx : Expanded htx htx₁ h n p a k) (hlow : h ≤ p)
    (hhigh : p < n) (hused : (htx.blk p).used = true) (hhead : htx'.head = htx.head)
    (htail : htx'.tail = htx.tail) (hblk : htx'.blk = Function.update htx.blk p ⟨a, info⟩)
    (hinfo : (HtxDesc.mk a info).used = true)
    (harea : ∀ x, x < a ∨ a + k ≤ x → htx'.area x = htx.area x) : Edited htx htx' p p := by
  have hother : ∀ q, q ≠ p → htx'.blk q = htx.blk q := fun q hne => by
    rw [hblk, Function.update_of_ne hne]
  have hslots : htx'.usedSlots = htx.usedSlots := by
    rw [usedSlots, usedSlots, slots_eq (hhead.trans hs.head) (htail.trans hs.tail), hs.slots]
    refine List.filter_congr fun q _ => ?_
    rcases eq_or_ne q p with rfl | hne
    · rw [hblk, Function.update_self, hused]
      exact hinfo
    · rw [hother q hne]
  obtain ⟨i, -, hp⟩ := exists_index (hs.mem_usedSlots.mpr ⟨⟨hlow, hhigh⟩, hused⟩)
  refine edited_of_index hp (hslots ▸ hp) (by rw [hslots]) fun j x y hij hx' hy => ?_
  rw [hslots, hx'] at hy
  obtain rfl := Option.some.inj hy
  have hne : x ≠ p := fun heq => by
    obtain ⟨hj, hxj⟩ := List.getElem?_eq_some_iff.mp hx'
    obtain ⟨hi, hpi⟩ := List.getElem?_eq_some_iff.mp hp
    exact hij ((List.Nodup.getElem_inj_iff (usedSlots_nodup htx)).mp
      (hxj.trans (heq.trans hpi.symm)))
  obtain ⟨⟨hxl, hxh⟩, hxu⟩ := hs.mem_usedSlots.mp (List.mem_of_getElem? hx')
  rw [entry, entry, payload, payload, hother x hne]
  congr 1
  rcases Nat.eq_zero_or_pos (htx.blk x).getBlksz with hzero | hpos
  · rw [hzero, readAt_zero, readAt_zero]
  refine readAt_congr fun c hc => harea _ ?_
  rcases Nat.eq_zero_or_pos k with hk | hk
  · omega
  · rcases hx.apart x hxl hxh hne ⟨hxu, hpos⟩ hk with hbefore | hafter
    · exact .inl (by omega)
    · exact .inr (by omega)

theorem parts_of_holdsAt {name value : CStr} (hblk : htx'.blk q = ⟨a, info⟩)
    (hn : (HtxDesc.mk 0 info).nlen = name.length)
    (hv : (HtxDesc.mk 0 info).valueLen = value.length)
    (hold : HoldsAt htx'.area a (name ++ value)) :
    htx'.blkName q = name ∧ htx'.blkValue q = value := by
  obtain ⟨hname, hvalue⟩ := holdsAt_append.mp hold
  have hn' : (HtxDesc.mk a info).nlen = name.length := hn
  have hv' : (HtxDesc.mk a info).valueLen = value.length := hv
  rw [blkName, blkValue, hblk, hn', hv']
  exact ⟨hname, hvalue⟩

/-! ### After a defragmentation -/

theorem newInfo_self (hne : info ≠ 0) : htx.newInfo (some p) info p = info := if_pos ⟨rfl, hne⟩

theorem newInfo_other (hne : q ≠ p) : htx.newInfo (some p) info q = (htx.blk q).info :=
  if_neg fun h => hne (Option.some.inj h.1).symm

theorem defragLoop_blkpos (htx : HtxBuf) (p info n old : ℕ) (st : Defrag)
    (h : p ∈ (List.range' old n).filter (fun q => (htx.blk q).used) ∨ st.blkpos ≠ none) :
    (defragLoop htx (some p) info n old st).blkpos ≠ none := by
  induction n generalizing old st with
  | zero => exact h.resolve_left List.not_mem_nil
  | succ n ih =>
    rw [List.range'_succ] at h
    rw [defragLoop]
    dsimp only
    by_cases hused : (htx.blk old).used = true
    · simp only [List.filter_cons, hused, if_true, List.mem_cons, Bool.true_eq_false,
        if_false] at h ⊢
      refine ih (old + 1) _ ?_
      rcases h with (rfl | hmem) | hpos
      · exact .inr (by rw [if_pos rfl]; exact Option.some_ne_none _)
      · exact .inl hmem
      · right
        dsimp only
        split_ifs
        · exact Option.some_ne_none _
        · exact hpos
    · simp only [List.filter_cons, hused, if_true] at h ⊢
      exact ih (old + 1) st h

theorem Shape.offs_le_data (hs : htx.Shape h n) (hp : htx.usedSlots[i]? = some p) :
    htx.offs (some p) info htx.usedSlots i ≤ htx.data := by
  have hsame : htx.offs (some p) info htx.usedSlots i = htx.offs none 0 htx.usedSlots i := by
    rw [offs, offs]
    refine congrArg List.sum (List.map_congr_left fun q hq => ?_)
    obtain ⟨j, hj, rfl⟩ := List.mem_take_iff_getElem.mp hq
    obtain ⟨hi, hpi⟩ := List.getElem?_eq_some_iff.mp hp
    have hne : htx.usedSlots[j] ≠ p := fun heq => by
      have hji := (List.Nodup.getElem_inj_iff (usedSlots_nodup htx)).mp (heq.trans hpi.symm)
      omega
    rw [newSize, newSize, newInfo_other hne, newInfo_none]
  have hle := offs_add_le_sum htx none 0 htx.usedSlots hp
  have hsum : (htx.usedSlots.map (htx.newSize none 0)).sum = htx.data := by
    rw [hs.data]
    exact congrArg List.sum (List.map_congr_left fun q _ => newSize_none q)
  rw [hsame]
  omega

/-- **`htx_defrag` with a longer block**: what is written in its place afterwards is the edition of
this block. -/
theorem Shape.defrag_edited (hs : htx.Shape h n) (trash : HtxTrash) (hp : p ∈ htx.usedSlots)
    (hne : info ≠ 0) (hinfo : (HtxDesc.mk 0 info).used = true)
    (hgrows : (htx.blk p).getBlksz ≤ (HtxDesc.mk 0 info).getBlksz) :
    ∃ i a, (defrag trash htx (some p) info).1 = some i ∧ a ≤ htx.data ∧
      (defrag trash htx (some p) info).2.blk i = ⟨a, info⟩ ∧
      readAt (defrag trash htx (some p) info).2.area a (htx.blk p).getBlksz = htx.payload p ∧
      ∀ area : ℕ → UInt8, (∀ x, x < a ∨ a + (HtxDesc.mk 0 info).getBlksz ≤ x →
          area x = (defrag trash htx (some p) info).2.area x) →
        Edited htx { (defrag trash htx (some p) info).2 with area := area } p i := by
  have hself : htx.newSize (some p) info p = (HtxDesc.mk 0 info).getBlksz := by
    rw [newSize, newInfo_self hne]
  have hgrow : ∀ q, (htx.blk q).getBlksz ≤ htx.newSize (some p) info q := by
    intro q
    rcases eq_or_ne q p with rfl | hq
    · rw [hself]
      exact hgrows
    · rw [newSize, newInfo_other hq]
      exact Nat.le_refl _
  have hpacked := hs.defragEnd_packed (some p) info trash hgrow
  rw [defrag_eq trash (some p) info hs.head]
  generalize defragEnd trash htx (some p) info h = st at hpacked ⊢
  have hnew : st.new = htx.usedSlots.length := by rw [hpacked.new, Nat.zero_add]
  have hdesc : ∀ j q, htx.usedSlots[j]? = some q → st.blk j
      = ⟨htx.offs (some p) info htx.usedSlots j, htx.newInfo (some p) info q⟩ := by
    intro j q hq
    have := hpacked.desc j q hq
    rwa [Nat.zero_add, Nat.zero_add] at this
  obtain ⟨i, hi, hpi⟩ := exists_index hp
  have hblk : st.blk i = ⟨htx.offs (some p) info htx.usedSlots i, info⟩ := by
    rw [hdesc i p hpi, newInfo_self hne]
  refine ⟨i, _, ?_, ?_, hblk, ?_, fun area harea => ?_⟩
  · have := hpacked.pos (usedSlots_nodup htx) i p hpi rfl
    rwa [Nat.zero_add] at this
  · exact hs.offs_le_data hpi
  · have := hpacked.area i p hpi
    rwa [Nat.zero_add] at this
  -- all blocks are used, from position 0 on
  have husedAll : ∀ j q, htx.usedSlots[j]? = some q → (st.blk j).used = true := by
    intro j q hq
    rw [hdesc j q hq]
    rcases eq_or_ne q p with rfl | hqp
    · rw [newInfo_self hne]
      exact hinfo
    · rw [newInfo_other hqp]
      exact (HtxBuf.mem_usedSlots.mp (List.mem_of_getElem? hq)).2
  have hslots : ∀ htx' : HtxBuf, htx'.head = some 0 → htx'.tail = posBefore st.new →
      htx'.blk = st.blk → htx'.usedSlots = List.range htx.usedSlots.length := by
    intro htx' hhead htail hblk'
    rw [usedSlots, slots_eq hhead htail, hnew, Nat.sub_zero, ← List.range_eq_range',
      List.filter_eq_self]
    intro j hj
    rw [hblk']
    exact husedAll j _ (List.getElem?_eq_getElem (List.mem_range.mp hj))
  refine edited_of_index hpi ?_ ?_ fun j x y hij hx hy => ?_
  · rw [hslots _ rfl rfl rfl, List.getElem?_range hi]
  · rw [hslots _ rfl rfl rfl, List.length_range]
  rw [hslots _ rfl rfl rfl] at hy
  obtain ⟨hj, rfl⟩ := List.getElem?_eq_some_iff.mp hy
  rw [List.getElem_range] at hy ⊢
  have hxp : x ≠ p := fun heq => by
    obtain ⟨hjx, hxj⟩ := List.getElem?_eq_some_iff.mp hx
    obtain ⟨hix, hpx⟩ := List.getElem?_eq_some_iff.mp hpi
    exact hij ((List.Nodup.getElem_inj_iff (usedSlots_nodup htx)).mp
      (hxj.trans (heq.trans hpx.symm)))
  have hdescj := hdesc j x hx
  rw [newInfo_other hxp] at hdescj
  have hsize : (st.blk j).getBlksz = (htx.blk x).getBlksz := by rw [hdescj]; rfl
  have haddr : (st.blk j).addr = htx.offs (some p) info htx.usedSlots j := by rw [hdescj]
  have hsizex : htx.newSize (some p) info x = (htx.blk x).getBlksz := by
    rw [newSize, newInfo_other hxp]
    rfl
  have hread := hpacked.area j x hx
  rw [Nat.zero_add] at hread
  show ((st.blk j).info, readAt area (st.blk j).addr (st.blk j).getBlksz) = htx.entry x
  rw [entry, hsize, haddr, ← hread, hdescj]
  congr 1
  refine readAt_congr fun c hc => harea _ ?_
  -- the packed payloads are in the order of the blocks
  rcases Nat.lt_or_gt_of_ne hij with hlt | hgt
  · have hle := offs_add_le htx (some p) info htx.usedSlots hx hlt
    rw [hsizex] at hle
    exact .inl (by omega)
  · have hle := offs_add_le htx (some p) info htx.usedSlots hpi hgt
    rw [hself] at hle
    exact .inr (by omega)

/-! ### `htx_replace_blk_value` -/

variable {o : ℕ} {new : CStr}

/-- The value with `k` bytes after `o` replaced. -/
def spliced (v : CStr) (o k : ℕ) (new : CStr) : CStr := v.take o ++ (new ++ v.drop (o + k))

theorem split_value (v : CStr) (o k : ℕ) :
    v = v.take o ++ ((v.drop o).take k ++ v.drop (o + k)) := by
  rw [← List.drop_drop, List.take_append_drop, List.take_append_drop]

theorem length_spliced {v : CStr} (hk : o + k ≤ v.length) :
    (spliced v o k new).length = v.length - k + new.length := by
  rw [spliced, List.length_append, List.length_append, List.length_take, List.length_drop]
  omega

theorem length_blkName (htx : HtxBuf) (p : ℕ) : (htx.blkName p).length = (htx.blk p).nlen :=
  length_readAt _ _ _

theorem length_blkValue (htx : HtxBuf) (p : ℕ) :
    (htx.blkValue p).length = (htx.blk p).valueLen := length_readAt _ _ _

theorem payload_eq (htx : HtxBuf) (p : ℕ) : htx.payload p = htx.blkName p ++ htx.blkValue p := by
  rw [payload, ← HtxDesc.nlen_add_valueLen, readAt_add]
  rfl

/-- What the caller of `htx_replace_blk_value` may rely on. -/
def ReplacesValue (htx : HtxBuf) (p o k : ℕ) (new : CStr) (r : Option ℕ × HtxBuf) : Prop :=
  (r.1 = none → r.2 = htx) ∧
    ∀ q, r.1 = some q → Edited htx r.2 p q ∧
      (r.2.blk q).getBlkType = (htx.blk p).getBlkType ∧ r.2.blkName q = htx.blkName p ∧
      r.2.blkValue q = spliced (htx.blkValue p) o k new

variable (new) in
theorem holdsAt_spliced {m : ℕ → UInt8} {name value : CStr}
    (hold : HoldsAt m a (name ++ value)) (hk : o + k ≤ value.length) {b rest : ℕ}
    (hb : b = a + name.length + o) (hrest : rest = value.length - (o + k)) :
    HoldsAt (growAt m b k new rest) a (name ++ spliced value o k new) ∧
      (new.length ≤ k → HoldsAt (shrinkAt m b k new rest) a (name ++ spliced value o k new)) := by
  have hpre : (name ++ value.take o).length = name.length + o := by
    rw [List.length_append, List.length_take]
    omega
  have hold' : ((value.drop o).take k).length = k := by
    rw [List.length_take, List.length_drop]
    omega
  have hsuf : (value.drop (o + k)).length = rest := by rw [hrest, List.length_drop]
  have hparts : HoldsAt m a
      (name ++ value.take o ++ ((value.drop o).take k ++ value.drop (o + k))) := by
    rw [List.append_assoc, ← split_value]
    exact hold
  have hgrow := holdsAt_growAt new hparts
  have hshrink := fun hle => holdsAt_shrinkAt new hparts hle
  rw [hpre, hold', hsuf, ← Nat.add_assoc, ← hb] at hgrow
  rw [hpre, hold', hsuf, ← Nat.add_assoc, ← hb] at hshrink
  rw [List.append_assoc] at hgrow hshrink
  exact ⟨hgrow, hshrink⟩

theorem update_setBlkValueLen {v : ℕ}
    (hblk : htx₁.blk = Function.update htx.blk p { htx.blk p with addr := a }) :
    Function.update htx₁.blk p ((htx₁.blk p).setBlkValueLen v)
      = Function.update htx.blk p ⟨a, ((htx.blk p).setBlkValueLen v).info⟩ := by
  rw [hblk, Function.update_self, Function.update_idem]
  exact congrArg (Function.update htx.blk p) (HtxDesc.setBlkValueLen_addr _ a v)

theorem getBlksz_of_relengthened {d : HtxDesc} {info v : ℕ} (h : HtxDesc.Relengthened d info v) :
    (HtxDesc.mk 0 info).getBlksz = d.nlen + v := by
  rw [← HtxDesc.nlen_add_valueLen, h.nlen, h.valueLen]

theorem used_of_type {d : HtxDesc} (hused : d.used = true) (a : ℕ)
    (htype : (HtxDesc.mk 0 info).getBlkType = d.getBlkType) :
    (HtxDesc.mk a info).used = true := by
  have hsame : (HtxDesc.mk a info).used = (HtxDesc.mk 0 info).used := rfl
  rw [hsame, HtxDesc.used, htype]
  exact hused

theorem replacesValue_at
    (hword : HtxDesc.Relengthened (htx.blk p) info ((htx.blk p).valueLen - k + new.length))
    (hk : o + k ≤ (htx.blk p).valueLen) (hedited : Edited htx htx' p q)
    (hblk : htx'.blk q = ⟨a, info⟩)
    (hold : HoldsAt htx'.area a (htx.blkName p ++ spliced (htx.blkValue p) o k new)) :
    ReplacesValue htx p o k new (some q, htx') := by
  refine ⟨fun hnone => absurd hnone (Option.some_ne_none q), fun q' hq => ?_⟩
  obtain rfl := Option.some.inj hq
  have hlen := length_blkValue htx p
  refine ⟨hedited, ?_, parts_of_holdsAt hblk ?_ ?_ hold⟩
  · show (htx'.blk q).getBlkType = _
    rw [hblk]
    exact hword.type
  · rw [hword.nlen, length_blkName]
  · rw [hword.valueLen, length_spliced (by omega), hlen]

/-- **`htx_replace_blk_value`** with a length that fits. -/
theorem Shape.replaceBlkValue (hs : htx.Shape h n) (trash : HtxTrash) (hp : p ∈ htx.usedSlots)
    (hedit : (htx.blk p).Editable) (hk : o + k ≤ (htx.blk p).valueLen)
    (hfits : (htx.blk p).Fits ((htx.blk p).valueLen - k + new.length))
    (hroom : ¬htx.Refused (int32 (new.length - k))) :
    ReplacesValue htx p o k new (replaceBlkValue trash htx p o k new) := by
  obtain ⟨⟨hlow, hhigh⟩, hused⟩ := hs.mem_usedSlots.mp hp
  have hnew := hfits.lt
  have hold := (htx.blk p).fits_valueLen.lt
  have hint : int32 (new.length - k) = new.length - k := int32_eq (by omega) (by omega)
  have hlen : add32 (htx.blk p).valueLen (new.length - k)
      = (htx.blk p).valueLen - k + new.length := add32_eq (by omega) (by omega)
  obtain ⟨-, hword⟩ := HtxDesc.setBlkValueLen_fits hedit hfits
  have hsplit := (htx.blk p).nlen_add_valueLen
  have hsize := getBlksz_of_relengthened hword
  have hname := length_blkName htx p
  have hvalue := length_blkValue htx p
  have hheld : HoldsAt htx.area (htx.blk p).addr (htx.blkName p ++ htx.blkValue p) := by
    rw [← payload_eq]
    exact holdsAt_readAt _ _ _
  have hdelta : (new.length : ℤ) - k
      = ((htx.blk p).nlen + ((htx.blk p).valueLen - k + new.length) : ℕ)
        - (htx.blk p).getBlksz := by omega
  rw [hint] at hroom
  have hprep := hs.prepareBlkExpansion hlow hhigh hused hdelta hroom
  rw [HtxBuf.replaceBlkValue, hint, hlen]
  dsimp only
  generalize HtxBuf.prepareBlkExpansion htx p (new.length - k) = r at hprep ⊢
  rcases hprep with ⟨hret, hx⟩ | ⟨a, hret, hx, hgrows, hfresh⟩ | ⟨hret, hsame, hgrows⟩
  · -- in place
    rw [if_neg (by omega), if_pos hret, update_setBlkValueLen hx.blk, hx.area]
    have hparts := holdsAt_spliced new hheld (by omega) (congrArg (_ + · + o) hname.symm)
      (congrArg (· - (o + k)) hvalue.symm)
    refine replacesValue_at hword hk (hx.edited hs hlow hhigh hused hx.head hx.tail rfl
      (used_of_type hused _ hword.type) fun x hout => ?_) (Function.update_self _ _ _) ?_
    · show (if _ then _ else _ : ℕ → UInt8) x = _
      split_ifs with hneg
      · exact shrinkAt_outside (by omega) (by omega)
      · exact growAt_outside (by omega)
    · show HoldsAt (if _ then _ else _ : ℕ → UInt8) _ _
      split_ifs with hneg
      · exact hparts.2 (by omega)
      · exact hparts.1
  · -- at a new address
    have hcopy := copy_replaced htx.area (b := (htx.blk p).addr) (a := a) (n := (htx.blk p).nlen)
      (o := o) (k := k) (l := (htx.blk p).valueLen - (o + k)) new (fun hpos => by
        have := hfresh (by omega)
        rw [CellsApart] at this ⊢
        omega)
    have hbytes : (htx.blkName p ++ spliced (htx.blkValue p) o k new).length
        = (htx.blk p).nlen + ((htx.blk p).valueLen - k + new.length) := by
      rw [List.length_append, hname, length_spliced (by omega), hvalue]
    have hread : readAt htx.area (htx.blk p).addr (htx.blk p).nlen ++
        (readAt htx.area ((htx.blk p).addr + (htx.blk p).nlen) o ++ (new ++
          readAt htx.area ((htx.blk p).addr + (htx.blk p).nlen + o + k)
            ((htx.blk p).valueLen - (o + k))))
        = htx.blkName p ++ spliced (htx.blkValue p) o k new := by
      rw [spliced, blkValue, take_readAt _ _ (by omega), drop_readAt _ _ hk, ← Nat.add_assoc]
      rfl
    dsimp only at hcopy
    rw [hread] at hcopy
    rw [if_neg (by omega), if_neg (by omega), if_pos hret, update_setBlkValueLen hx.blk, hx.area,
      hx.blk, Function.update_self, hcopy]
    refine replacesValue_at hword hk (hx.edited hs hlow hhigh hused hx.head hx.tail rfl
      (used_of_type hused _ hword.type) fun x hout => ?_) (Function.update_self _ _ _)
      (holdsAt_writeAt _ _ _)
    exact writeAt_outside _ (by omega)
  · -- after a defragmentation
    rw [if_neg (by omega), if_neg (by omega), if_neg (by omega), hsame]
    obtain ⟨i, a, hpos, hle, hblk, hread, hedited⟩ := hs.defrag_edited trash hp hword.ne
      (used_of_type hused 0 hword.type) (by omega)
    have hreach := hs.reach p hlow hhigh hused
    have hbound := hs.size
    have hspace := hs.usedSpace_le
    have hoffset : (((htx.blk p).addr + (htx.blk p).nlen + o : ℕ)
        + int32 (a - (htx.blk p).addr)).toNat = a + (htx.blk p).nlen + o := by
      rw [int32_eq (by omega) (by omega)]
      omega
    have hheld' : HoldsAt (defrag trash htx (some p) ((htx.blk p).setBlkValueLen
        ((htx.blk p).valueLen - k + new.length)).info).2.area a
        (htx.blkName p ++ htx.blkValue p) := by
      rw [← payload_eq, HoldsAt, length_payload, hread]
    have hparts := holdsAt_spliced new hheld' (by omega) (congrArg (_ + · + o) hname.symm)
      (congrArg (· - (o + k)) hvalue.symm)
    rw [hpos, Option.getD_some, hblk]
    dsimp only
    rw [hoffset]
    refine replacesValue_at hword hk (hedited _ fun x hout => ?_) hblk hparts.1
    exact growAt_outside (by omega)

/-! ### `htx_replace_header` -/

variable {name value : CStr}

/-- What the caller of `htx_replace_header` may rely on. -/
def ReplacesHeader (htx : HtxBuf) (p : ℕ) (name value : CStr) (r : Option ℕ × HtxBuf) : Prop :=
  (r.1 = none → r.2 = htx) ∧
    ∀ q, r.1 = some q → Edited htx r.2 p q ∧ (r.2.blk q).getBlkType = htxBlkHdr ∧
      r.2.blkName q = name.map istLc ∧ r.2.blkValue q = value

theorem replacesHeader_at (hname : name.length < 2 ^ 8) (hvalue : value.length < 2 ^ 20)
    (hinfo : info = (htxBlkHdr * 2 ^ 28 + value.length * 2 ^ 8 + name.length) % 2 ^ 32)
    (hedited : Edited htx htx' p q) (hblk : htx'.blk q = ⟨a, info⟩)
    (hold : HoldsAt htx'.area a (name.map istLc ++ value)) :
    ReplacesHeader htx p name value (some q, htx') := by
  refine ⟨fun hnone => absurd hnone (Option.some_ne_none q), fun q' hq => ?_⟩
  obtain rfl := Option.some.inj hq
  obtain ⟨htype, hn, hv, -⟩ := HtxDesc.word_named 0 (.inl rfl) hvalue hname hinfo
  refine ⟨hedited, ?_, parts_of_holdsAt hblk ?_ hv hold⟩
  · show (htx'.blk q).getBlkType = _
    rw [hblk]
    exact htype
  · rw [hn, List.length_map]

theorem update_info (hblk : htx₁.blk = Function.update htx.blk p { htx.blk p with addr := a }) :
    Function.update htx₁.blk p { htx₁.blk p with info := info }
      = Function.update htx.blk p ⟨a, info⟩ := by
  rw [hblk, Function.update_self, Function.update_idem]

theorem Expanded.header (hs : htx.Shape h n) (hx : Expanded htx htx₁ h n p a k)
    (hp : p ∈ htx.usedSlots) (hname : name.length < 2 ^ 8) (hvalue : value.length < 2 ^ 20)
    (hinfo : info = (htxBlkHdr * 2 ^ 28 + value.length * 2 ^ 8 + name.length) % 2 ^ 32)
    (hused : (HtxDesc.mk a info).used = true) (hk : name.length + value.length ≤ k) {data : ℕ} :
    ReplacesHeader htx p name value (some p, { htx₁ with
      data := data
      blk := Function.update htx.blk p ⟨a, info⟩
      area := writeAt htx₁.area a (name.map istLc ++ value) }) := by
  obtain ⟨⟨hlow, hhigh⟩, hold⟩ := hs.mem_usedSlots.mp hp
  rw [hx.area]
  refine replacesHeader_at hname hvalue hinfo (hx.edited hs hlow hhigh hold hx.head hx.tail rfl
    hused fun x hout => writeAt_outside _ ?_) (Function.update_self _ _ _) (holdsAt_writeAt _ _ _)
  rw [List.length_append, List.length_map]
  omega

/-- **`htx_replace_header`** with lengths that fit. -/
theorem Shape.replaceHeader (hs : htx.Shape h n) (trash : HtxTrash) (hp : p ∈ htx.usedSlots)
    (htype : (htx.blk p).getBlkType = htxBlkHdr) (hname : name.length < 2 ^ 8)
    (hvalue : value.length < 2 ^ 20)
    (hroom : ¬htx.Refused (int32 (name.length + value.length - (htx.blk p).getBlksz))) :
    ReplacesHeader htx p name value (replaceHeader trash htx p name value) := by
  obtain ⟨⟨hlow, hhigh⟩, hused⟩ := hs.mem_usedSlots.mp hp
  have hold := (htx.blk p).fits_valueLen.lt
  have hnlen := (htx.blk p).nlen_lt
  have hsplit := (htx.blk p).nlen_add_valueLen
  have hint : int32 (name.length + value.length - (htx.blk p).getBlksz)
      = name.length + value.length - (htx.blk p).getBlksz := int32_eq (by omega) (by omega)
  obtain ⟨info, hinfo⟩ : ∃ info, info
      = (htxBlkHdr * 2 ^ 28 + value.length * 2 ^ 8 + name.length) % 2 ^ 32 := ⟨_, rfl⟩
  obtain ⟨hword, hn, hv, hne⟩ := HtxDesc.word_named 0 (.inl rfl) hvalue hname hinfo
  have hinfoUsed : ∀ b, (HtxDesc.mk b info).used = true :=
    fun b => used_of_type hused b (hword.trans htype.symm)
  have hsize : (HtxDesc.mk 0 info).getBlksz = name.length + value.length := by
    rw [← HtxDesc.nlen_add_valueLen, hn, hv]
  have hdelta : (name.length : ℤ) + value.length - (htx.blk p).getBlksz
      = (name.length + value.length : ℕ) - (htx.blk p).getBlksz := by omega
  have hlen : (name.map istLc ++ value).length = name.length + value.length := by
    rw [List.length_append, List.length_map]
  -- the two copies are one
  have hwrite : ∀ (m : ℕ → UInt8) (b : ℕ),
      writeAt (writeAt m b (name.map istLc)) (b + name.length) value
        = writeAt m b (name.map istLc ++ value) := by
    intro m b
    have := writeAt_append m b (name.map istLc) value
    rwa [List.length_map] at this
  rw [hint] at hroom
  have hprep := hs.prepareBlkExpansion hlow hhigh hused hdelta hroom
  rw [HtxBuf.replaceHeader, if_neg fun hother => hother htype, hint, ← hinfo]
  dsimp only
  generalize HtxBuf.prepareBlkExpansion htx p
    (name.length + value.length - (htx.blk p).getBlksz) = r at hprep ⊢
  rcases hprep with ⟨hret, hx⟩ | ⟨a, hret, hx, hgrows, hfresh⟩ | ⟨hret, hsame, hgrows⟩
  · -- in place
    rw [if_neg (by omega), if_neg (by omega)]
    dsimp only
    rw [Option.getD_some, update_info hx.blk, Function.update_self, hwrite]
    exact hx.header hs hp hname hvalue hinfo (hinfoUsed _) (by omega)
  · -- at a new address
    rw [if_neg (by omega), if_neg (by omega)]
    dsimp only
    rw [Option.getD_some, update_info hx.blk, Function.update_self, hwrite]
    exact hx.header hs hp hname hvalue hinfo (hinfoUsed _) (Nat.le_refl _)
  · -- after a defragmentation
    rw [if_neg (by omega), if_pos hret, hsame]
    obtain ⟨i, a, hpos, -, hblk, -, hedited⟩ := hs.defrag_edited trash hp hne (hinfoUsed 0)
      (by omega)
    rw [hpos, Option.getD_some, hblk]
    dsimp only
    rw [hwrite]
    refine replacesHeader_at hname hvalue hinfo (hedited _ fun x hout => ?_) hblk
      (holdsAt_writeAt _ _ _)
    exact writeAt_outside _ (by omega)

/-! ### When the lengths fit -/

theorem prepareBlkExpansion_ret (htx : HtxBuf) (p : ℕ) {delta : ℤ} (hroom : ¬htx.Refused delta) :
    (prepareBlkExpansion htx p delta).1 = 1 ∨ (prepareBlkExpansion htx p delta).1 = 2 ∨
      prepareBlkExpansion htx p delta = (3, htx) := by
  rw [prepareBlkExpansion]
  dsimp only
  by_cases hneg : delta ≤ 0
  · rw [if_pos hneg]
    exact .inl rfl
  rw [if_neg hneg, if_neg fun hfull => hroom ⟨by omega, by omega⟩]
  split_ifs <;> simp

theorem Shape.defrag_some (hs : htx.Shape h n) (trash : HtxTrash) (hp : p ∈ htx.usedSlots)
    (info : ℕ) : ∃ q, (defrag trash htx (some p) info).1 = some q := by
  rw [defrag_eq trash (some p) info hs.head]
  refine Option.ne_none_iff_exists'.mp (defragLoop_blkpos htx p info _ _ _ (.inl ?_))
  rw [usedSlots, hs.slots] at hp
  rw [hs.nbblks]
  exact hp

theorem Shape.replaceBlkValue_some (hs : htx.Shape h n) (trash : HtxTrash) (hp : p ∈ htx.usedSlots)
    (hroom : ¬htx.Refused (int32 (new.length - k))) :
    ∃ q, (HtxBuf.replaceBlkValue trash htx p o k new).1 = some q := by
  rw [HtxBuf.replaceBlkValue]
  dsimp only
  rcases prepareBlkExpansion_ret htx p hroom with hret | hret | hret
  · rw [hret]
    exact ⟨p, rfl⟩
  · rw [hret]
    exact ⟨p, rfl⟩
  · rw [hret]
    exact hs.defrag_some trash hp _

theorem Shape.replaceHeader_some (hs : htx.Shape h n) (trash : HtxTrash) (hp : p ∈ htx.usedSlots)
    (htype : (htx.blk p).getBlkType = htxBlkHdr)
    (hroom : ¬htx.Refused (int32 (name.length + value.length - (htx.blk p).getBlksz))) :
    ∃ q, (HtxBuf.replaceHeader trash htx p name value).1 = some q := by
  rw [HtxBuf.replaceHeader, if_neg fun hother => hother htype]
  dsimp only
  rcases prepareBlkExpansion_ret htx p hroom with hret | hret | hret
  · rw [hret]
    exact ⟨p, rfl⟩
  · rw [hret]
    exact ⟨p, rfl⟩
  · rw [hret]
    exact hs.defrag_some trash hp _

theorem Wf.shape_of_mem (hw : htx.Wf) (hp : p ∈ htx.usedSlots) : ∃ h n, htx.Shape h n := by
  rcases hw with hb | ⟨h, n, -, hs⟩
  · have hslots := (mem_usedSlots.mp hp).1
    rw [slots_blank hb.head] at hslots
    exact absurd hslots List.not_mem_nil
  · exact ⟨h, n, hs⟩

theorem Wf.replacesValue_iff (hw : htx.Wf) (trash : HtxTrash) (hp : p ∈ htx.usedSlots)
    (hedit : (htx.blk p).Editable) (hk : o + k ≤ (htx.blk p).valueLen) :
    ReplacesValue htx p o k new (replaceBlkValue trash htx p o k new) ↔
      htx.Refused (int32 (new.length - k)) ∨
        (htx.blk p).Fits ((htx.blk p).valueLen - k + new.length) := by
  obtain ⟨h, n, hs⟩ := hw.shape_of_mem hp
  by_cases hroom : htx.Refused (int32 (new.length - k))
  · have hret := prepareBlkExpansion_refused (p := p) hroom
    refine ⟨fun _ => .inl hroom, fun _ => ?_⟩
    rw [replaceBlkValue]
    dsimp only
    rw [hret]
    exact ⟨fun _ => rfl, fun q hq => absurd hq.symm (Option.some_ne_none q)⟩
  constructor
  · -- the value that is read back has a length that fits
    intro hgood
    obtain ⟨q, hq⟩ := hs.replaceBlkValue_some trash hp hroom
    obtain ⟨-, htype, -, hvalue⟩ := hgood.2 q hq
    right
    have hlen := congrArg List.length hvalue
    have hold := length_blkValue htx p
    rw [length_blkValue, length_spliced (by omega), hold] at hlen
    rw [← hlen, HtxDesc.Fits, ← HtxDesc.named_congr htype]
    exact HtxDesc.fits_valueLen _
  · rintro (hfull | hfits)
    · exact absurd hfull hroom
    · exact hs.replaceBlkValue trash hp hedit hk hfits hroom

theorem Wf.replacesHeader_iff (hw : htx.Wf) (trash : HtxTrash) (hp : p ∈ htx.usedSlots) :
    ReplacesHeader htx p name value (replaceHeader trash htx p name value) ↔
      (htx.blk p).getBlkType ≠ htxBlkHdr ∨
        htx.Refused (int32 (name.length + value.length - (htx.blk p).getBlksz)) ∨
        name.length < 2 ^ 8 ∧ value.length < 2 ^ 20 := by
  obtain ⟨h, n, hs⟩ := hw.shape_of_mem hp
  have hnone : ∀ r : Option ℕ × HtxBuf, r = (none, htx) → ReplacesHeader htx p name value r := by
    rintro r rfl
    exact ⟨fun _ => rfl, fun q hq => absurd hq.symm (Option.some_ne_none q)⟩
  by_cases htype : (htx.blk p).getBlkType = htxBlkHdr
  swap
  · exact ⟨fun _ => .inl htype, fun _ => hnone _ (if_pos htype)⟩
  by_cases hroom : htx.Refused (int32 (name.length + value.length - (htx.blk p).getBlksz))
  · refine ⟨fun _ => .inr (.inl hroom), fun _ => hnone _ ?_⟩
    rw [replaceHeader, if_neg fun hother => hother htype]
    dsimp only
    rw [prepareBlkExpansion_refused hroom]
    rfl
  constructor
  · -- the lengths that are read back fit
    intro hgood
    obtain ⟨q, hq⟩ := hs.replaceHeader_some trash hp htype hroom
    obtain ⟨-, htype', hname, hvalue⟩ := hgood.2 q hq
    have hlen := congrArg List.length hname
    have hlen' := congrArg List.length hvalue
    rw [length_blkName, List.length_map] at hlen
    rw [length_blkValue] at hlen'
    have hfits := HtxDesc.fits_valueLen ((replaceHeader trash htx p name value).2.blk q)
    have hnamed : ((replaceHeader trash htx p name value).2.blk q).named = true := by
      rw [HtxDesc.named, htype']
      rfl
    rw [HtxDesc.Fits, if_pos hnamed, hlen'] at hfits
    exact .inr (.inr ⟨hlen ▸ HtxDesc.nlen_lt _, hfits⟩)
  · rintro (hother | hfull | ⟨hname, hvalue⟩)
    · exact absurd htype hother
    · exact absurd hfull hroom
    · exact hs.replaceHeader trash hp htype hname hvalue hroom

/-- **Editions of a well-formed message** are right whenever the new lengths fit their fields, or
the message has no room, and in no other case. -/
theorem edition_exact_iff (trash : HtxTrash) (htx : HtxBuf) (hw : htx.Wf) (p : ℕ)
    (hp : p ∈ htx.usedSlots) (hedit : (htx.blk p).Editable) :
    (∀ (o k : ℕ) (new : CStr), o + k ≤ (htx.blk p).valueLen →
      (ReplacesValue htx p o k new (replaceBlkValue trash htx p o k new) ↔
        htx.Refused (int32 (new.length - k)) ∨
          (htx.blk p).Fits ((htx.blk p).valueLen - k + new.length))) ∧
    ∀ name value : CStr,
      (ReplacesHeader htx p name value (replaceHeader trash htx p name value) ↔
        (htx.blk p).getBlkType ≠ htxBlkHdr ∨
          htx.Refused (int32 (name.length + value.length - (htx.blk p).getBlksz)) ∨
          name.length < 2 ^ 8 ∧ value.length < 2 ^ 20) :=
  ⟨fun _ _ _ hk => hw.replacesValue_iff trash hp hedit hk,
    fun _ _ => hw.replacesHeader_iff trash hp⟩

/-- A message in 1024 bytes, with the header "ab: c". -/
def oneHeader : HtxBuf where
  size := 1024
  data := 3
  tail := some 0
  head := some 0
  first := some 0
  tailAddr := 3
  headAddr := 0
  endAddr := 0
  extra := 0
  flags := 0
  blk := fun _ => ⟨0, htxBlkHdr * 2 ^ 28 + 1 * 2 ^ 8 + 2⟩
  area := fun a => UInt8.ofNat (97 + a)

theorem oneHeader_wf : oneHeader.Wf := by
  refine .inr ⟨0, 1, by decide, ⟨rfl, rfl, by decide, by decide, by decide, by decide,
    .inl (by decide), by decide, by decide, fun p _ hp _ => .inr ?_,
    fun p q _ hp _ hq hne _ _ => ?_, fun p _ hp _ => ?_, fun p _ hp => ?_, rfl, by decide⟩⟩
  · rcases Nat.lt_one_iff.mp hp with rfl
    decide
  · exact absurd ((Nat.lt_one_iff.mp hp).trans (Nat.lt_one_iff.mp hq).symm) hne
  · rcases Nat.lt_one_iff.mp hp with rfl
    decide
  · rcases Nat.lt_one_iff.mp hp with rfl
    decide

theorem oneHeader_slot : 0 ∈ oneHeader.usedSlots := by decide

/-- The header becomes "x: yz", and then its value is longer by "123". -/
theorem edition_exact_iff_oneHeader :
    (∃ htx q, replaceHeader trashCopy oneHeader 0 [88] [121, 122] = (some q, htx) ∧
      htx.blkName q = [120] ∧ htx.blkValue q = [121, 122]) ∧
    ReplacesValue oneHeader 0 1 0 [49, 50, 51]
      (replaceBlkValue trashCopy oneHeader 0 1 0 [49, 50, 51]) := by
  have hexact := edition_exact_iff trashCopy oneHeader oneHeader_wf 0 oneHeader_slot (.inl rfl)
  have hfits : (oneHeader.blk 0).Fits 4 := by
    show 4 < 2 ^ 20
    decide
  refine ⟨?_, (hexact.1 1 0 [49, 50, 51] (by decide)).mpr (.inr hfits)⟩
  have hgood := (hexact.2 [88] [121, 122]).mpr (.inr (.inr ⟨by decide, by decide⟩))
  obtain ⟨-, -, hname, hvalue⟩ := hgood.2 0 rfl
  exact ⟨_, 0, rfl, hname, hvalue⟩

/-- A name of 256 bytes: its length is stored as 0. -/
theorem not_edition_exact :
    ¬ReplacesHeader oneHeader 0 (List.replicate 256 97) [118]
      (replaceHeader trashCopy oneHeader 0 (List.replicate 256 97) [118]) := by
  intro hgood
  rcases (oneHeader_wf.replacesHeader_iff trashCopy oneHeader_slot).mp hgood
    with hother | hfull | ⟨hname, -⟩
  · exact hother rfl
  · rw [Refused, List.length_replicate] at hfull
    exact absurd hfull (by decide)
  · rw [List.length_replicate] at hname
    exact absurd hname (by decide)

end HtxBuf

end SmartHAProxy
