/-
`htx_append_msg`: all of a message, or nothing.

The blocks of the source are added one by one.  If one of them has no room, the
message is truncated at the number of bytes it had at first.  A block without
payload is no byte of it, so that the place of the cut would not be known.

Main result: `appendMsg_all_or_nothing`, by `Wf.truncate`.
-/
import SmartHAProxy.Htx.Reserve
import SmartHAProxy.Htx.Remove

namespace SmartHAProxy

namespace HtxBuf

variable {htx dst dst' src : HtxBuf} {trash : HtxTrash} {h n p : ℕ}

def Solid (htx : HtxBuf) : Prop := ∀ p ∈ htx.usedSlots, 0 < (htx.blk p).getBlksz

theorem Wf.data (hw : htx.Wf) : htx.data = (htx.content.map fun e => e.2.length).sum := by
  rcases hw with hb | ⟨h, n, -, hs⟩
  · rw [hb.data, content_blank hb.head]
    rfl
  · rw [content_sizes]
    exact hs.data

theorem solid_iff : htx.Solid ↔ ∀ e ∈ htx.content, 0 < e.2.length := by
  constructor
  · intro h e he
    obtain ⟨p, hp, rfl⟩ := List.mem_map.mp he
    show 0 < (htx.payload p).length
    rw [length_payload]
    exact h p hp
  · intro h p hp
    have he := h _ (List.mem_map_of_mem (f := htx.entry) hp)
    have hlen : 0 < (htx.payload p).length := he
    rwa [length_payload] at hlen

/-! ### The place of the cut -/

/-- The search passes the blocks `us₁`, whose bytes are the offset, and the unused ones. -/
theorem findOffsetLoop_between (hs : htx.Shape h n) {us₁ us₂ : List ℕ} {fuel offset : ℕ}
    (hlow : h ≤ p) (hne : us₂ ≠ [])
    (hus : (List.range' p (n - p)).filter (fun q => (htx.blk q).used) = us₁ ++ us₂)
    (hsolid : ∀ q ∈ us₁, 0 < (htx.blk q).getBlksz)
    (hoffset : offset = (us₁.map fun q => (htx.blk q).getBlksz).sum) (hfuel : n - p ≤ fuel) :
    ∃ r, findOffsetLoop htx fuel (some p) offset = (some r, 0) ∧ p ≤ r ∧ r < n ∧
      (∀ q ∈ us₁, q < r) ∧ ∀ q ∈ us₂, r ≤ q := by
  induction fuel generalizing p us₁ offset with
  | zero =>
    rw [Nat.le_zero.mp hfuel] at hus
    exact absurd (List.append_eq_nil_iff.mp hus.symm).2 hne
  | succ fuel ih =>
    have hlt : p < n := by
      by_contra hge
      rw [Nat.sub_eq_zero_of_le (Nat.le_of_not_lt hge)] at hus
      exact hne (List.append_eq_nil_iff.mp hus.symm).2
    have habove : ∀ q ∈ us₁ ++ us₂, p ≤ q := by
      intro q hq
      rw [← hus, List.mem_filter, List.mem_range'_1] at hq
      exact hq.1.1
    rw [findOffsetLoop]
    by_cases hzero : offset = 0
    · -- no block is to be passed
      have hnone : us₁ = [] := by
        rcases us₁ with - | ⟨q, us₁⟩
        · rfl
        · have hq := hsolid q List.mem_cons_self
          rw [List.map_cons, List.sum_cons] at hoffset
          omega
      rw [if_pos hzero]
      refine ⟨p, rfl, Nat.le_refl p, hlt, fun q hq => ?_, fun q hq => habove q ?_⟩
      · rw [hnone] at hq
        cases hq
      · exact List.mem_append_right _ hq
    rw [if_neg hzero]
    have hcons : n - p = n - (p + 1) + 1 := by omega
    have hmore : ∀ {us : List ℕ}, (List.range' (p + 1) (n - (p + 1))).filter
        (fun q => (htx.blk q).used) = us ++ us₂ → p + 1 < n := by
      intro us heq
      by_contra hge
      rw [Nat.sub_eq_zero_of_le (Nat.le_of_not_lt hge)] at heq
      exact hne (List.append_eq_nil_iff.mp heq.symm).2
    have hnext : p + 1 < n → htx.getNext p = some (p + 1) := by
      intro hlt'
      refine if_neg ?_
      rintro (hnone | hlast)
      · rw [hs.tail] at hnone
        obtain ⟨k, rfl⟩ : ∃ k, n = k + 1 := ⟨n - 1, by omega⟩
        rw [posBefore_succ] at hnone
        cases hnone
      · have := (tail_eq_some hs.tail (by omega) p).mp hlast
        omega
    rw [hcons, List.range'_succ] at hus
    by_cases hused : (htx.blk p).used = true
    · simp only [List.filter_cons, hused, if_true] at hus
      rcases us₁ with - | ⟨q, us₁⟩
      · rw [List.map_nil] at hoffset
        exact absurd hoffset hzero
      obtain ⟨rfl, hrest⟩ := List.cons.inj hus
      rw [List.map_cons, List.sum_cons] at hoffset
      have hge : ¬offset < (htx.blk p).getBlksz := by omega
      rw [if_neg hge, hnext (hmore hrest)]
      obtain ⟨r, hrun, hle, hrn, hbefore, hafter⟩ := ih (Nat.le_succ_of_le hlow) hrest
        (fun q hq => hsolid q (List.mem_cons_of_mem p hq))
        (Nat.sub_eq_of_eq_add' hoffset) (by omega)
      refine ⟨r, hrun, by omega, hrn, fun q hq => ?_, hafter⟩
      rcases List.mem_cons.mp hq with rfl | hq
      · omega
      · exact hbefore q hq
    · simp only [List.filter_cons, hused] at hus
      have hsz : (htx.blk p).getBlksz = 0 := hs.zero p hlow hlt (Bool.eq_false_iff.mpr hused)
      rw [hsz, if_neg (Nat.not_lt_zero _), Nat.sub_zero, hnext (hmore hus)]
      obtain ⟨r, hrun, hle, hrn, hbefore, hafter⟩ := ih (by omega) hus hsolid hoffset (by omega)
      exact ⟨r, hrun, by omega, hrn, hbefore, hafter⟩

/-- **`htx_truncate`** at the end of the first blocks. -/
theorem Wf.truncate (hw : htx.Wf) (hsolid : htx.Solid) {c₁ c₂ : List (ℕ × CStr)}
    (hc : htx.content = c₁ ++ c₂) :
    (htx.truncate (c₁.map fun e => e.2.length).sum).content = c₁ := by
  have hdata := hw.data
  rw [hc, List.map_append, List.sum_append] at hdata
  rcases eq_or_ne c₂ [] with rfl | hne
  · -- nothing to remove
    rw [HtxBuf.truncate, findOffset, if_pos (Nat.le_of_eq (by rw [hdata]; rfl))]
    rw [hc, List.append_nil]
  have hpos : 0 < (c₂.map fun e => e.2.length).sum := by
    rcases c₂ with - | ⟨e, c₂⟩
    · exact absurd rfl hne
    · have hmem : e ∈ htx.content := by
        rw [hc]
        exact List.mem_append_right _ List.mem_cons_self
      have he := solid_iff.mp hsolid e hmem
      rw [List.map_cons, List.sum_cons]
      omega
  rcases hw with hb | ⟨h, n, hlt, hs⟩
  · rw [content_blank hb.head] at hc
    exact absurd (List.append_eq_nil_iff.mp hc.symm).2 hne
  obtain ⟨us₁, us₂, hus, rfl, rfl⟩ := List.map_eq_append_iff.mp hc
  have hslots : (List.range' h (n - h)).filter (fun q => (htx.blk q).used) = us₁ ++ us₂ := by
    rw [← hus, usedSlots, hs.slots]
  have hsizes : ((us₁.map htx.entry).map fun e => e.2.length)
      = us₁.map fun q => (htx.blk q).getBlksz := by
    rw [List.map_map]
    exact List.map_congr_left fun q _ => length_payload htx q
  obtain ⟨r, hrun, hhr, hrn, hbefore, hafter⟩ := findOffsetLoop_between hs (Nat.le_refl h)
    (fun hnil => hne (by rw [hnil]; rfl)) hslots
    (fun q hq => hsolid q (by rw [hus]; exact List.mem_append_left _ hq))
    (congrArg List.sum hsizes) (Nat.le_of_eq hs.nbblks.symm)
  rw [HtxBuf.truncate, findOffset, if_neg (by omega), hs.head, hrun]
  dsimp only
  rw [if_neg fun hand => hand.1 rfl]
  have hcleared := (removeUntil_cleared none (htx.nbblks + 1) hs.head
    hs.tail hhr hrn (Nat.le_of_lt hrn) (by rw [hs.nbblks]; omega) (.inl ⟨rfl, rfl⟩)).1
  have hpair := usedSlots_pairwise htx
  rw [hus] at hpair
  refine hcleared.content (List.pairwise_append.mp hpair).1 fun q => ?_
  rw [hus, List.mem_append]
  constructor
  · exact fun hq => ⟨.inl hq, .inl (hbefore q hq)⟩
  · rintro ⟨hq | hq, hlow | hhigh⟩
    · exact hq
    · exact hq
    · exact absurd (hafter q hq) (by omega)
    · have hmem : q ∈ htx.usedSlots := by
        rw [hus]
        exact List.mem_append_right _ hq
      have hqn := (hs.mem_usedSlots.mp hmem).1.2
      omega

/-! ### The blocks of the source -/

theorem store_setInfo (htx : HtxBuf) (pos word info : ℕ) (bs : CStr) :
    store { htx with blk := Function.update htx.blk pos { htx.blk pos with info := word } }
      pos info bs = htx.store pos info bs := by
  simp [store]

theorem describes_payload (src : HtxBuf) (hused : (src.blk p).used = true) :
    Describes (src.blk p).info (src.payload p) :=
  ⟨hused, (length_payload src p).symm⟩

variable (trash) in
theorem Wf.addBlk (hw : dst.Wf) (hused : (src.blk p).used = true)
    (hpos : 0 < (src.blk p).getBlksz) :
    addBlk trash dst (src.blk p).getBlkType (src.blk p).getBlksz = none ∨
      ∃ r, addBlk trash dst (src.blk p).getBlkType (src.blk p).getBlksz = some r ∧
        (r.2.store r.1 (src.blk p).info (src.payload p)).Wf ∧
        (r.2.store r.1 (src.blk p).info (src.payload p)).content
          = dst.content ++ [src.entry p] := by
  have hlen := length_payload src p
  rw [HtxBuf.addBlk]
  rcases Nat.lt_or_ge dst.freeDataSpace (src.blk p).getBlksz with hfull | hroom
  · left
    rw [HtxBuf.reserveNxblk, if_pos hfull]
    rfl
  right
  rw [← hlen] at hpos hroom ⊢
  have hfree := freeDataSpace_le (.inl hpos) hroom
  have hne : (src.payload p).length = 0 → 9 ≤ dst.freeSpace :=
    fun hzero => absurd hzero (Nat.ne_of_gt hpos)
  obtain ⟨r, hr, hst⟩ :=
    hw.reserveNxblk trash (describes_payload src hused) hfree hroom hne
  obtain ⟨h, hle, hs⟩ := hst.shape
  rw [hr]
  refine ⟨_, rfl, ?_, ?_⟩
  · rw [store_setInfo]
    exact .inr ⟨h, r.1 + 1, Nat.lt_succ_of_le hle, hs⟩
  · rw [store_setInfo]
    exact hst.content

/-- The content of the positions from `p` on. -/
def entriesFrom (htx : HtxBuf) (p n : ℕ) : List (ℕ × CStr) :=
  ((List.range' p n).filter fun q => (htx.blk q).used).map htx.entry

theorem entriesFrom_unused (hunused : (htx.blk p).used = false) :
    htx.entriesFrom p (n + 1) = htx.entriesFrom (p + 1) n := by
  simp [entriesFrom, List.range'_succ, hunused]

theorem entriesFrom_used (hused : (htx.blk p).used = true) :
    htx.entriesFrom p (n + 1) = htx.entry p :: htx.entriesFrom (p + 1) n := by
  simp [entriesFrom, List.range'_succ, hused]

variable (trash) in
theorem appendLoop_content (hw : dst.Wf)
    (hsolid : ∀ q, p ≤ q → q < p + n → (src.blk q).used = true → 0 < (src.blk q).getBlksz) :
    ∃ c₁ c₂, src.entriesFrom p n = c₁ ++ c₂ ∧ (appendLoop trash src n p dst).2.Wf ∧
      (appendLoop trash src n p dst).2.content = dst.content ++ c₁ ∧
      ((appendLoop trash src n p dst).1 = true → c₂ = []) := by
  induction n generalizing p dst with
  | zero => exact ⟨[], [], rfl, hw, (List.append_nil _).symm, fun _ => rfl⟩
  | succ n ih =>
    have hnext : ∀ q, p + 1 ≤ q → q < p + 1 + n → (src.blk q).used = true →
        0 < (src.blk q).getBlksz := fun q hlow hhigh => hsolid q (by omega) (by omega)
    rw [appendLoop]
    by_cases hused : (src.blk p).used = true
    · rw [if_neg (by rw [hused]; exact Bool.noConfusion), entriesFrom_used hused]
      have hpos := hsolid p (Nat.le_refl p) (by omega) hused
      rcases hw.addBlk trash hused hpos with hfull | ⟨r, hr, hw', hc'⟩
      · rw [hfull]
        exact ⟨[], _, rfl, hw, (List.append_nil _).symm, fun htrue => Bool.noConfusion htrue⟩
      · rw [hr]
        obtain ⟨c₁, c₂, hc, hwf, hcontent, hall⟩ := ih hw' hnext
        refine ⟨src.entry p :: c₁, c₂, by rw [hc]; rfl, hwf, ?_, hall⟩
        rw [hcontent, hc', List.append_assoc]
        rfl
    · have hunused := Bool.eq_false_iff.mpr hused
      rw [if_pos hunused, entriesFrom_unused hunused]
      exact ih hw hnext

/-- **`htx_append_msg` appends all of the source, or nothing.** -/
theorem appendMsg_all_or_nothing (trash : HtxTrash) (dst src : HtxBuf) (hdst : dst.Wf)
    (hdstSolid : dst.Solid) (hsrcSolid : src.Solid) :
    (appendMsg trash dst src).1 = true ∧
        (appendMsg trash dst src).2.content = dst.content ++ src.content ∨
      (appendMsg trash dst src).1 = false ∧
        (appendMsg trash dst src).2.content = dst.content := by
  have hsolid : ∀ q, src.head.getD 0 ≤ q → q < src.head.getD 0 + src.nbblks →
      (src.blk q).used = true → 0 < (src.blk q).getBlksz := by
    intro q hlow hhigh hused
    refine hsrcSolid q (mem_usedSlots.mpr ⟨?_, hused⟩)
    rw [slots, List.mem_range'_1]
    exact ⟨hlow, hhigh⟩
  obtain ⟨c₁, c₂, hc, hw, hcontent, hall⟩ := appendLoop_content trash hdst hsolid
  have hc' : src.content = c₁ ++ c₂ := hc
  rw [appendMsg]
  generalize appendLoop trash src src.nbblks (src.head.getD 0) dst = r at hw hcontent hall ⊢
  obtain ⟨_ | _, dst'⟩ := r
  · -- the cut is where the message ended
    refine .inr ⟨rfl, ?_⟩
    rw [hdst.data]
    refine hw.truncate (solid_iff.mpr fun e he => ?_) hcontent
    rw [hcontent, List.mem_append] at he
    rcases he with he | he
    · exact solid_iff.mp hdstSolid e he
    · refine solid_iff.mp hsrcSolid e ?_
      rw [hc']
      exact List.mem_append_left _ he
  · refine .inl ⟨rfl, ?_⟩
    rw [hc', hall rfl, List.append_nil]
    exact hcontent

/-- A message in 64 bytes, with the blocks "abc" and "d". -/
def twoData : HtxBuf where
  size := 64
  data := 4
  tail := some 1
  head := some 0
  first := some 0
  tailAddr := 4
  headAddr := 0
  endAddr := 0
  extra := 0
  flags := 0
  blk := fun p => if p = 0 then ⟨0, htxBlkData * 2 ^ 28 + 3⟩ else ⟨3, htxBlkData * 2 ^ 28 + 1⟩
  area := fun a => UInt8.ofNat (97 + a)

theorem twoData_wf : twoData.Wf := by
  have htwo : ∀ p, p < 2 → p = 0 ∨ p = 1 := fun p hp => by omega
  refine .inr ⟨0, 2, by decide, ⟨rfl, rfl, by decide, by decide, by decide, by decide,
    .inl (by decide), by decide, by decide, fun p _ hp _ => .inr ?_,
    fun p q _ hp _ hq hne _ _ => ?_, fun p _ hp _ => ?_, fun p _ hp => ?_,
    rfl, by decide⟩⟩
  · rcases htwo p hp with rfl | rfl <;> decide
  · rcases htwo p hp with rfl | rfl <;> rcases htwo q hq with rfl | rfl
    · exact absurd rfl hne
    · exact .inl (by decide)
    · exact .inr (by decide)
    · exact absurd rfl hne
  · rcases htwo p hp with rfl | rfl <;> decide
  · rcases htwo p hp with rfl | rfl <;> decide

theorem twoData_solid : twoData.Solid := by
  show ∀ p ∈ [0, 1], 0 < (twoData.blk p).getBlksz
  decide

/-- A trash chunk with the bytes of the message. -/
def trashCopy : HtxTrash := fun htx => ⟨htx.blk, htx.area⟩

theorem appendMsg_all_or_nothing_twoData :
    (appendMsg trashCopy twoData twoData).2.content
      = [(htxBlkData * 2 ^ 28 + 3, [97, 98, 99]), (htxBlkData * 2 ^ 28 + 1, [100]),
        (htxBlkData * 2 ^ 28 + 3, [97, 98, 99]), (htxBlkData * 2 ^ 28 + 1, [100])] := by
  rcases appendMsg_all_or_nothing trashCopy twoData twoData twoData_wf twoData_solid twoData_solid
    with ⟨-, hc⟩ | ⟨hfalse, -⟩
  · exact hc
  · exact absurd hfalse (by decide)

end HtxBuf

end SmartHAProxy
