/-
Runs of calls on the shared cache.

A reservation leads from segments to segments (`Tiled.reserveNew`,
`Tiled.reserveExtend`), as the other calls do, and so does every run of calls
that meet their conditions.
-/
import SmartHAProxy.Shctx.Conserve

namespace SmartHAProxy

variable {dataLen : ℤ} {xs : List ℕ}

variable {n : ℕ} {s : RowCache} {hs as : List (List ℕ)}

/-! ### The loops, on segments -/

theorem Tiles.length_le {block : ℕ → SharedBlock} {segs : List (List ℕ)} (h : Tiles block segs) :
    segs.length ≤ segs.flatten.length := by
  induction segs with
  | nil => exact Nat.le_refl 0
  | cons seg segs ih =>
    obtain ⟨b, bs, rfl, -⟩ := h _ List.mem_cons_self
    have hrest := ih fun s hs => h s (List.mem_cons_of_mem _ hs)
    simp only [List.flatten_cons, List.length_append, List.length_cons]
    omega

theorem Tiled.reserveLoop (hs₁ hs₂ : List (List ℕ)) (h : Tiled n s (hs₁ ++ hs₂) as)
    (hbs : 0 ≤ s.c.blockSize) {last : Option ℕ} {need : ℤ} (hne : as ≠ [])
    (hlast : GoesBehind last hs₁.flatten hs₂.flatten)
    (hneed : need ≤ as.flatten.length * s.c.blockSize) :
    ∃ segs₁ segs₂ ys zs, as = segs₁ ++ segs₂ ∧ segs₁.flatten = ys ++ zs ∧
      Finished s.c need hs₁.flatten hs₂.flatten ys zs segs₂.flatten
        (reserveLoop s.c.avail.length ⟨s.c, need, false, 0, last, none⟩) := by
  have htiles : Tiles s.c.block as := fun seg hseg => h.tiles seg (List.mem_append_right _ hseg)
  have hstart : Progress s.c need hs₁.flatten hs₂.flatten [] as.flatten
      ⟨s.c, need, false, 0, last, none⟩ := by
    refine ⟨?_, h.avail, h.nbav, rfl, rfl, fun _ => rfl, ?_, .inl rfl, rfl, rfl, ?_, ?_⟩
    · rw [h.hot, List.flatten_append, List.append_nil]
    · simp
    · rw [List.append_nil]
      exact hlast
    · have hnodup := h.nodup
      simpa using hnodup
  have hfuel : as.length ≤ s.c.avail.length := by
    rw [h.avail]
    exact htiles.length_le
  exact hstart.reserveLoop hbs htiles (fun hnil => absurd hnil hne) (.inl ⟨rfl, rfl⟩)
    (by simpa using hneed) hfuel

theorem Tiled.refcount_avail (h : Tiled n s hs as) {b : ℕ} (hb : b ∈ as.flatten) :
    (s.c.block b).refcount = 0 := by
  obtain ⟨seg, hseg, hbseg⟩ := List.mem_flatten.mp hb
  obtain ⟨x, xs, rfl, -⟩ := h.tiles seg (List.mem_append_right hs hseg)
  rcases List.mem_cons.mp hbseg with rfl | htail
  · exact h.avail_refcount _ hseg b rfl
  · exact h.tail_refcount _ (List.mem_append_right hs hseg) b htail

theorem not_reserveRefused {c : SharedContext} {first : Option ℕ} (hbs : 0 ≤ c.blockSize)
    (hmax : dataLen < 2 ^ 31) (h : reserveRefused c first dataLen = false) :
    dataLen ≤ c.nbav * c.blockSize := by
  have hfits : toUnsigned dataLen ≤ toUnsigned (c.nbav * c.blockSize) := by
    have hfirst := (Bool.or_eq_false_iff.mp h).1
    simpa using hfirst
  have hnonneg : 0 ≤ (c.nbav : ℤ) * c.blockSize := Int.mul_nonneg (Int.natCast_nonneg _) hbs
  simp only [toUnsigned] at hfits
  generalize (c.nbav : ℤ) * c.blockSize = room at *
  omega

theorem not_reserveRefused_new {c : SharedContext} (hmax : dataLen < 2 ^ 31)
    (hpos : 0 < c.maxObjSize) (h : reserveRefused c none dataLen = false) :
    dataLen ≤ c.maxObjSize := by
  have hlimit := (Bool.or_eq_false_iff.mp h).2
  rw [decide_eq_true hpos, Bool.true_and] at hlimit
  simp only [toUnsigned, gt_iff_lt, decide_eq_false_iff_not, not_lt] at hlimit
  omega

theorem not_reserveRefused_extend {c : SharedContext} {b : ℕ} (hnonneg : 0 ≤ dataLen)
    (hmax : dataLen < 2 ^ 31) (hlen : (c.block b).len < 2 ^ 31) (hpos : 0 < c.maxObjSize)
    (h : reserveRefused c (some b) dataLen = false) : (c.block b).len + dataLen ≤ c.maxObjSize := by
  have hlimit := (Bool.or_eq_false_iff.mp h).2
  rw [decide_eq_true hpos, Bool.true_and] at hlimit
  simp only [toUnsigned, gt_iff_lt, decide_eq_false_iff_not, not_lt] at hlimit
  omega

/-! ### A new row -/

theorem Tiled.length_le (h : Tiled n s hs as) : (hs ++ as).flatten.length = n := by
  rw [h.perm.length_eq, List.length_range]

section Blocks

variable {c : SharedContext} {need : ℤ} {pre post taken left rest : List ℕ} {r : Reserving} {b₀ : ℕ}

theorem Finished.block_head (h : Finished c need pre post taken left rest r)
    (hhead : taken.head? = some b₀) : r.c.block b₀ = reservedBlock (c.block b₀) taken := by
  rw [h.block, if_pos hhead]

theorem Finished.block_visited (h : Finished c need pre post taken left rest r)
    (hhead : taken.head? = some b₀) {x : ℕ} (hx : x ∈ taken ++ left) (hne : x ≠ b₀) :
    r.c.block x = visitedBlock (c.block x) := by
  rw [h.block, hhead, if_neg (fun heq => hne (Option.some.inj heq).symm), if_pos hx]

theorem Finished.block_other (h : Finished c need pre post taken left rest r)
    {x : ℕ} (hx : x ∉ taken ++ left) : r.c.block x = c.block x := by
  rw [h.block, if_neg, if_neg hx]
  intro hhead
  exact hx (List.mem_append_left left (List.mem_of_mem_head? hhead))

end Blocks

theorem Tiled.refcount_visited {segs₁ segs₂ : List (List ℕ)} (h : Tiled n s hs (segs₁ ++ segs₂))
    (hvisited : segs₁.flatten = xs) : ∀ x ∈ xs, (s.c.block x).refcount = 0 := by
  intro x hx
  refine h.refcount_avail ?_
  rw [List.flatten_append, hvisited]
  exact List.mem_append_left _ hx

theorem Tiled.nodup_visited {segs₁ segs₂ : List (List ℕ)} (h : Tiled n s hs (segs₁ ++ segs₂))
    (hvisited : segs₁.flatten = xs) : (hs.flatten ++ xs).Nodup := by
  have hall := h.nodup
  rw [List.flatten_append, List.flatten_append, hvisited, ← List.append_assoc] at hall
  exact (List.nodup_append.mp hall).1

/-- The new row and the free blocks, from where the loops stop. -/
theorem Finished.recut {segs₁ segs₂ : List (List ℕ)} {ys zs : List ℕ} {need : ℤ} {r : Reserving}
    {b₀ : ℕ} (h : Tiled n s hs (segs₁ ++ segs₂)) (hbs : 0 ≤ s.c.blockSize)
    (hvisited : segs₁.flatten = ys ++ zs)
    (hfin : Finished s.c need hs.flatten [] ys zs segs₂.flatten r)
    (hhead : ys.head? = some b₀) (hsmall : s.c.blockSize * ys.length < 2 ^ 31) :
    Recut s r.c hs [] segs₁ segs₂ [] ys zs b₀ := by
  have hcold := h.refcount_visited hvisited
  have hfirst := hfin.block_head hhead
  have hsingles : (zs.map (fun z => [z])).flatten = zs := List.flatMap_singleton' zs
  refine ⟨hvisited, ?_, ?_, ?_, hfin.blockSize, hhead, ?_, ?_, ?_, ?_, ?_, ?_, ?_, ?_, ?_, .inl rfl⟩
  · rw [hfin.hot]
    simp
  · rw [hfin.avail, List.flatten_append, hsingles]
  · rw [hfin.nbav, List.flatten_append, hsingles]
  · rw [hfirst]
    rfl
  · rw [hfirst]
    rfl
  · rw [hfirst]
    exact (by decide : (1 : UInt32) ≠ 0)
  · rw [hfirst]
    exact Int.mul_nonneg hbs (Int.natCast_nonneg _)
  · rw [hfirst]
    exact hsmall
  · intro y hy hne
    rw [hfin.block_visited hhead (List.mem_append_left zs hy) hne]
    exact hcold y (List.mem_append_left zs hy)
  · intro z hz
    have hne : z ≠ b₀ := by
      rintro rfl
      have hnodup := (List.nodup_append.mp (h.nodup_visited hvisited)).2.1
      exact (List.disjoint_of_nodup_append hnodup) (List.mem_of_mem_head? hhead) hz
    rw [hfin.block_visited hhead (List.mem_append_right ys hz) hne]
    exact ⟨rfl, hcold z (List.mem_append_right ys hz)⟩
  · intro x hx _
    exact hfin.block_other hx
  · intro x hx
    cases hx

theorem Tiled.mul_length_lt {segs₁ segs₂ : List (List ℕ)} (xs : List ℕ) {ys zs : List ℕ}
    (h : Tiled n s hs (segs₁ ++ segs₂)) (hbs : 0 ≤ s.c.blockSize)
    (hsmall : n * s.c.blockSize < 2 ^ 31) (hvisited : segs₁.flatten = ys ++ zs)
    (hxs : xs.length ≤ hs.flatten.length) : s.c.blockSize * (xs ++ ys).length < 2 ^ 31 := by
  have hlen := h.length_le
  rw [List.flatten_append, List.flatten_append, hvisited] at hlen
  simp only [List.length_append] at hlen
  have hle : ((xs ++ ys).length : ℤ) ≤ n := by
    rw [List.length_append]
    omega
  calc s.c.blockSize * (xs ++ ys).length ≤ s.c.blockSize * n := Int.mul_le_mul_of_nonneg_left hle hbs
    _ = n * s.c.blockSize := mul_comm _ _
    _ < 2 ^ 31 := hsmall

def Advances (n : ℕ) (s t : RowCache) (hs : List (List ℕ)) : Prop :=
  ∃ hs' as', Tiled n t hs' as' ∧ Sizes n t.c ∧ Spared hs (hs' ++ as') ∧
    ∀ b ∈ s.rows, (s.c.block b).refcount ≠ 0 → b ∈ t.rows

theorem Tiled.advances_self (h : Tiled n s hs as) (hsizes : Sizes n s.c) : Advances n s s hs :=
  ⟨hs, as, h, hsizes, spared_of_perm (List.Perm.refl _), fun _ hb _ => hb⟩

theorem Sizes.of_eq {c c' : SharedContext} (h : Sizes n c) (hbs : c'.blockSize = c.blockSize)
    (hmax : c'.maxObjSize = c.maxObjSize) : Sizes n c' :=
  ⟨hbs ▸ h.nonneg, hbs ▸ h.short, by rw [hbs, hmax]; exact h.small⟩

theorem Tiled.not_mem_visited {segs₁ segs₂ : List (List ℕ)} (h : Tiled n s hs (segs₁ ++ segs₂))
    (hvisited : segs₁.flatten = xs) {b : ℕ} (hpos : (s.c.block b).refcount ≠ 0) :
    b ∉ xs := fun hmem =>
  hpos (h.refcount_visited hvisited b hmem)

theorem filter_take_zero (s : RowCache) : s.rows.filter (· ∉ s.c.avail.take 0) = s.rows := by
  simp

/-- What a reservation leaves that finds enough blocks: the first block of the row is
`b₀`, and `old` is the row that gets longer, if there is one. -/
structure Grown (n : ℕ) (s : RowCache) (r : Reserved) (hs₁ hs₂ segs₁ segs₂ old : List (List ℕ))
    (ys zs : List ℕ) (b₀ : ℕ) : Prop where
  tiled : Tiled n s (hs₁ ++ old ++ hs₂) (segs₁ ++ segs₂)
  cut : Recut s r.c hs₁ hs₂ segs₁ segs₂ old ys zs b₀
  maxObjSize : r.c.maxObjSize = s.c.maxObjSize
  ret : r.ret = some b₀
  freed : r.freed = (ys ++ zs).length
  ne_nil : ys ≠ []
  fresh : old = [] → (r.c.block b₀).len = 0
  kept : old ≠ [] → (r.c.block b₀).len = (s.c.block b₀).len

section Grown

variable {r : Reserved} {hs₁ hs₂ segs₁ segs₂ old : List (List ℕ)} {ys zs : List ℕ} {b₀ : ℕ}

theorem Grown.avail (h : Grown n s r hs₁ hs₂ segs₁ segs₂ old ys zs b₀) :
    s.c.avail = ys ++ zs ++ segs₂.flatten := by
  rw [h.tiled.avail, List.flatten_append, h.cut.visited]

theorem Grown.mem_rows (h : Grown n s r hs₁ hs₂ segs₁ segs₂ old ys zs b₀) {b : ℕ} :
    b ∈ s.rows.filter (· ∉ s.c.avail.take r.freed) ↔ b ∈ s.rows ∧ b ∉ ys ++ zs := by
  rw [h.freed, h.avail, List.take_left, List.mem_filter, decide_eq_true_eq]

theorem Grown.tiled_after (h : Grown n s r hs₁ hs₂ segs₁ segs₂ old ys zs b₀) (rows : List ℕ)
    (hrows : ∀ b ∈ rows, b = b₀ ∨ b ∈ s.rows.filter (· ∉ s.c.avail.take r.freed)) :
    Tiled n ⟨r.c, rows⟩ (hs₁ ++ (old.flatten ++ ys) :: hs₂)
      (zs.map (fun z => [z]) ++ segs₂) :=
  h.cut.tiled h.tiled rows fun b hb => (hrows b hb).imp id h.mem_rows.mp

theorem Grown.advances (h : Grown n s r hs₁ hs₂ segs₁ segs₂ old ys zs b₀) (hsizes : Sizes n s.c)
    {rows : List ℕ} (hrows : ∀ b ∈ rows, b = b₀ ∨ b ∈ s.rows.filter (· ∉ s.c.avail.take r.freed))
    (hkeep : ∀ b ∈ s.rows.filter (· ∉ s.c.avail.take r.freed), b ∈ rows) :
    Advances n s ⟨r.c, rows⟩ (hs₁ ++ old ++ hs₂) := by
  refine ⟨_, _, h.tiled_after rows hrows, hsizes.of_eq h.cut.blockSize h.maxObjSize, ?_, ?_⟩
  · intro seg hold
    simp only [List.mem_append] at hold
    rcases hold with (hold | hold) | hold
    · exact ⟨seg, by simp [hold], List.prefix_refl seg⟩
    · rcases h.cut.single with rfl | ⟨row, rfl⟩
      · cases hold
      · obtain rfl := List.mem_singleton.mp hold
        exact ⟨seg ++ ys, by simp, List.prefix_append _ _⟩
    · exact ⟨seg, by simp [hold], List.prefix_refl seg⟩
  · intro x hx hpos
    exact hkeep x (h.mem_rows.mpr ⟨hx, h.tiled.not_mem_visited h.cut.visited hpos⟩)

end Grown

/-- A reservation without a row: nothing, or a new row. -/
theorem Tiled.reserveNew_grown (h : Tiled n s hs as) (hsizes : Sizes n s.c)
    (hmax : dataLen < 2 ^ 31) :
    ∃ r, shctxRowReserveHot s.c none dataLen = .ok r ∧ (r = ⟨s.c, none, 0⟩ ∨
      ∃ segs₁ segs₂ ys zs b₀, as = segs₁ ++ segs₂ ∧ Grown n s r hs [] segs₁ segs₂ [] ys zs b₀) := by
  rw [shctxRowReserveHot]
  rcases hrefused : reserveRefused s.c none dataLen with - | -
  swap
  · exact ⟨_, if_pos rfl, .inl rfl⟩
  refine ⟨_, if_neg Bool.false_ne_true, ?_⟩
  rcases eq_or_ne as [] with rfl | hne
  · -- no block is available, and nothing is asked for
    left
    have havail : s.c.avail = [] := h.avail
    rw [havail]
    rfl
  have hneed := not_reserveRefused hsizes.nonneg hmax hrefused
  rw [h.nbav] at hneed
  obtain ⟨segs₁, segs₂, ys, zs, rfl, hvisited, hfin⟩ :=
    Tiled.reserveLoop hs [] (by rwa [List.append_nil]) hsizes.nonneg hne
      (.inl ⟨rfl, rfl⟩) hneed
  obtain ⟨b₀, hhead⟩ : ∃ b₀, ys.head? = some b₀ :=
    Option.isSome_iff_exists.mp (List.isSome_head?.mpr hfin.ne_nil)
  have hsmall : s.c.blockSize * ys.length < 2 ^ 31 := by
    rcases hsizes.small with hn | ⟨hpos, hobj⟩
    · simpa using h.mul_length_lt [] hsizes.nonneg hn hvisited (Nat.zero_le _)
    · have hlimit := not_reserveRefused_new hmax hpos hrefused
      rcases hfin.tight with hone | htight
      · rw [hone]
        have := hsizes.short
        push_cast
        omega
      · linarith
  refine .inr ⟨segs₁, segs₂, ys, zs, b₀, rfl, by simpa using h,
    hfin.recut h hsizes.nonneg hvisited hhead hsmall, hfin.maxObjSize, hfin.ret.trans hhead,
    hfin.freed, hfin.ne_nil, fun _ => ?_, fun hold => absurd rfl hold⟩
  show (SharedContext.block _ b₀).len = 0
  rw [hfin.block_head hhead]
  rfl

theorem Tiled.reserveNew (h : Tiled n s hs as) (hsizes : Sizes n s.c) (hmax : dataLen < 2 ^ 31) :
    ∃ t, ShctxCall.run s (.reserveHot none dataLen) = .ok t ∧ Advances n s t hs := by
  obtain ⟨r, hr, rfl | ⟨segs₁, segs₂, ys, zs, b₀, rfl, hgrown⟩⟩ := h.reserveNew_grown hsizes hmax
  · refine ⟨s, ?_, h.advances_self hsizes⟩
    rw [ShctxCall.run, hr]
    show Except.ok _ = _
    rw [filter_take_zero]
  · refine ⟨⟨r.c, b₀ :: s.rows.filter (· ∉ s.c.avail.take r.freed)⟩, ?_, ?_⟩
    · rw [ShctxCall.run, hr]
      show Except.ok _ = _
      rw [hgrown.ret]
    · have hadv := hgrown.advances hsizes (fun b hb => List.mem_cons.mp hb)
        fun b hb => List.mem_cons_of_mem b₀ hb
      rwa [List.append_nil, List.append_nil] at hadv

/-! ### A longer row -/

theorem Tiled.rowRemain_eq (h : Tiled n s hs as) {b : ℕ} (hb : b ∈ s.rows) :
    rowRemain s.c b = s.c.blockSize * (s.c.block b).blockCount - (s.c.block b).len := by
  have hlen := h.len_le b hb
  have hsmall := h.small b hb
  rw [rowRemain]
  generalize s.c.blockSize * ((s.c.block b).blockCount : ℤ) = size at *
  rw [Int.bmod_def]
  split_ifs <;> omega

section Extend

variable {c : SharedContext} {need : ℤ} {hs₁ hs₂ segs₁ segs₂ : List (List ℕ)} {ys zs : List ℕ}
  {r : Reserving} {b ret : ℕ} {bs : List ℕ}

/-- The longer row and the free blocks, from where the loops stop. -/
theorem Finished.recut_extend (h : Tiled n s (hs₁ ++ [b :: bs] ++ hs₂) (segs₁ ++ segs₂))
    (hb : b ∈ s.rows) (hbs : 0 ≤ s.c.blockSize) (hvisited : segs₁.flatten = ys ++ zs)
    (hfin : Finished s.c need (hs₁ ++ [b :: bs]).flatten hs₂.flatten ys zs segs₂.flatten r)
    (hhead : ys.head? = some ret)
    (hsmall : s.c.blockSize * (b :: bs ++ ys).length < 2 ^ 31) :
    Recut s (reserveExtend r.c b ret) hs₁ hs₂ segs₁ segs₂ [b :: bs] ys zs b := by
  have hcold := h.refcount_visited hvisited
  have hfirst := hfin.block_head hhead
  have hmem : b :: bs ∈ hs₁ ++ [b :: bs] ++ hs₂ := by simp
  have hnodup := h.nodup_visited hvisited
  have hnot : b ∉ ys ++ zs := fun hx =>
    (List.disjoint_of_nodup_append hnodup) (List.mem_flatten.mpr ⟨_, hmem, List.mem_cons_self⟩) hx
  have hret : ret ∈ ys := List.mem_of_mem_head? hhead
  have hne : b ≠ ret := by
    rintro rfl
    exact hnot (List.mem_append_left zs hret)
  have hcount : (s.c.block b).blockCount = (b :: bs).length := by
    obtain ⟨x, xs, hx, hc⟩ := h.tiles _ (List.mem_append_left _ hmem)
    obtain ⟨rfl, -⟩ := List.cons.inj hx
    exact hc
  -- the blocks after the end of the function
  have hblock : (reserveExtend r.c b ret).block b = { s.c.block b with
      blockCount := (b :: bs ++ ys).length, lastReserved := ys.getLast? } := by
    rw [reserveExtend, SharedContext.upd_block_of_ne _ _ _ hne, SharedContext.upd_block_self,
      hfin.block_other hnot, hfirst, hcount, List.length_append]
    rfl
  have hother {x : ℕ} (hx : x ≠ b) (hx' : x ≠ ret) :
      (reserveExtend r.c b ret).block x = r.c.block x := by
    rw [reserveExtend, SharedContext.upd_block_of_ne _ _ _ hx', SharedContext.upd_block_of_ne _ _ _ hx]
  have hsingles : (zs.map (fun z => [z])).flatten = zs := List.flatMap_singleton' zs
  refine ⟨hvisited, ?_, ?_, ?_, hfin.blockSize, rfl, ?_, ?_, ?_, ?_, ?_, ?_, ?_, ?_, ?_, .inr ⟨_, rfl⟩⟩
  · show r.c.hot = _
    rw [hfin.hot]
    simp
  · show r.c.avail = _
    rw [hfin.avail, List.flatten_append, hsingles]
  · show r.c.nbav = _
    rw [hfin.nbav, List.flatten_append, hsingles]
  · rw [hblock, List.flatten_singleton]
  · rw [hblock, List.flatten_singleton, List.getLast?_append_of_ne_nil _ hfin.ne_nil]
  · rw [hblock]
    exact h.hot_refcount _ hmem b rfl
  · rw [hblock]
    have hlen := h.len_le b hb
    rw [hcount] at hlen
    refine hlen.trans (Int.mul_le_mul_of_nonneg_left ?_ hbs)
    show ((b :: bs).length : ℤ) ≤ (b :: bs ++ ys).length
    rw [List.length_append]
    omega
  · rw [hblock]
    exact hsmall
  · intro y hy hyb
    rcases eq_or_ne y ret with rfl | hyr
    · rw [reserveExtend, SharedContext.upd_block_self]
    · rw [hother hyb hyr, hfin.block_visited hhead (List.mem_append_left zs hy) hyr]
      exact hcold y (List.mem_append_left zs hy)
  · intro z hz
    have hzb : z ≠ b := by
      rintro rfl
      exact hnot (List.mem_append_right ys hz)
    have hzr : z ≠ ret := by
      rintro rfl
      exact (List.disjoint_of_nodup_append (List.nodup_append.mp hnodup).2.1) hret hz
    rw [hother hzb hzr, hfin.block_visited hhead (List.mem_append_right ys hz) hzr]
    exact ⟨rfl, hcold z (List.mem_append_right ys hz)⟩
  · intro x hx hxb
    have hxr : x ≠ ret := by
      rintro rfl
      exact hx (List.mem_append_left zs hret)
    rw [hother hxb hxr, hfin.block_other hx]
  · intro x hx hxb
    rw [List.flatten_singleton] at hx
    exact h.tail_refcount _ (List.mem_append_left _ hmem) x ((List.mem_cons.mp hx).resolve_left hxb)

end Extend

/-- A reservation for a row: nothing, or the row gets longer.  With nothing to reserve, a
full row gets a block all the same, if there is one. -/
theorem Tiled.reserveRow_grown (h : Tiled n s hs as) (hsizes : Sizes n s.c) {b : ℕ}
    (hb : b ∈ s.rows) (href : (s.c.block b).refcount ≠ 0) (hmin : 0 ≤ dataLen)
    (hmax : dataLen < 2 ^ 31) (hzero : dataLen = 0 → rowRemain s.c b = 0 → as ≠ [] ∧
      (n * s.c.blockSize < 2 ^ 31 ∨ 0 < s.c.maxObjSize ∧ s.c.maxObjSize + s.c.blockSize < 2 ^ 31)) :
    ∃ r, shctxRowReserveHot s.c (some b) dataLen = .ok r ∧
      ((r.c = s.c ∧ r.freed = 0 ∧
        (reserveRefused s.c (some b) dataLen = true ∧ r.ret = none ∨ rowRemain s.c b ≠ 0)) ∨
      reserveRefused s.c (some b) dataLen = false ∧
        ∃ hs₁ hs₂ segs₁ segs₂ bs ys zs, hs = hs₁ ++ [b :: bs] ++ hs₂ ∧ as = segs₁ ++ segs₂ ∧
          Grown n s r hs₁ hs₂ segs₁ segs₂ [b :: bs] ys zs b) := by
  rw [shctxRowReserveHot]
  rcases hrefused : reserveRefused s.c (some b) dataLen with - | -
  swap
  · exact ⟨_, if_pos rfl, .inl ⟨rfl, rfl, .inl ⟨rfl, rfl⟩⟩⟩
  rw [if_neg Bool.false_ne_true]
  have hremain := h.rowRemain_eq hb
  have hlen := h.len_le b hb
  by_cases hfits : rowRemain s.c b ≠ 0 ∧ rowRemain s.c b ≥ dataLen
  · -- there is room in the row
    exact ⟨_, if_pos hfits, .inl ⟨rfl, rfl, .inr hfits.1⟩⟩
  have hroom := not_reserveRefused hsizes.nonneg hmax hrefused
  rw [h.nbav] at hroom
  have hneed : 0 ≤ dataLen - rowRemain s.c b ∧
      dataLen - rowRemain s.c b ≤ as.flatten.length * s.c.blockSize ∧
      (0 = dataLen - rowRemain s.c b → dataLen = 0 ∧ rowRemain s.c b = 0) := by
    rw [hremain] at hfits ⊢
    generalize s.c.blockSize * ((s.c.block b).blockCount : ℤ) = size at *
    omega
  have hne : as ≠ [] := by
    rintro rfl
    simp only [List.flatten_nil, List.length_nil, Nat.cast_zero, zero_mul] at hroom
    have h0 : dataLen = 0 := le_antisymm hroom hmin
    have hfull : rowRemain s.c b = 0 := by
      by_contra hroom
      refine hfits ⟨hroom, ?_⟩
      rw [h0, hremain]
      linarith
    exact (hzero h0 hfull).1 rfl
  obtain ⟨bs, hseg, hcount, hlast⟩ := h.segment hb
  obtain ⟨hs₁, hs₂, rfl⟩ := List.append_of_mem (h.mem_hot hseg href)
  have h' : Tiled n s (hs₁ ++ [b :: bs] ++ hs₂) as := by simpa using h
  have hbehind : GoesBehind (s.c.block b).lastReserved (hs₁ ++ [b :: bs]).flatten hs₂.flatten := by
    right
    rw [hlast]
    refine ⟨by simp, ?_⟩
    rw [List.flatten_append, List.flatten_singleton,
      List.getLast?_append_of_ne_nil _ (List.cons_ne_nil b bs)]
  obtain ⟨segs₁, segs₂, ys, zs, rfl, hvisited, hfin⟩ :=
    Tiled.reserveLoop _ _ h' hsizes.nonneg hne hbehind hneed.2.1
  rw [if_neg hfits]
  generalize SmartHAProxy.reserveLoop s.c.avail.length ⟨s.c, dataLen - rowRemain s.c b, false, 0,
    (s.c.block b).lastReserved, none⟩ = l at hfin ⊢
  obtain ⟨ret, hhead⟩ : ∃ ret, ys.head? = some ret :=
    Option.isSome_iff_exists.mp (List.isSome_head?.mpr hfin.ne_nil)
  have htight : (ys.length - 1 : ℤ) * s.c.blockSize ≤ dataLen - rowRemain s.c b ∧
      (0 < dataLen - rowRemain s.c b →
        (ys.length - 1 : ℤ) * s.c.blockSize < dataLen - rowRemain s.c b) := by
    rcases hfin.tight with hone | htight
    · rw [hone]
      simpa using hneed.1
    · exact ⟨htight.le, fun _ => htight⟩
  have hsmall : s.c.blockSize * (b :: bs ++ ys).length < 2 ^ 31 := by
    have hall (hn : n * s.c.blockSize < 2 ^ 31) :
        s.c.blockSize * (b :: bs ++ ys).length < 2 ^ 31 := by
      refine h'.mul_length_lt (b :: bs) hsizes.nonneg hn hvisited ?_
      simp only [List.flatten_append, List.flatten_singleton, List.length_append]
      omega
    have hsize := h.small b hb
    have hlimit := fun hpos => not_reserveRefused_extend hmin hmax (by omega) hpos hrefused
    rcases hneed.1.eq_or_lt with h0 | hpos'
    · -- one more block, though there is nothing to reserve
      rcases (hzero (hneed.2.2 h0).1 (hneed.2.2 h0).2).2 with hn | ⟨hpos, hobj⟩
      · exact hall hn
      · have hle := hlimit hpos
        rw [List.length_append, Nat.cast_add, ← hcount]
        rw [hremain] at htight
        linarith [htight.1]
    · rcases hsizes.small with hn | ⟨hpos, hobj⟩
      · exact hall hn
      · have hle := hlimit hpos
        have hlt := htight.2 hpos'
        rw [List.length_append, Nat.cast_add, ← hcount]
        rw [hremain] at hlt
        linarith
  have hret := hfin.ret.trans hhead
  have hnot : b ∉ ys ++ zs := fun hx =>
    (List.disjoint_of_nodup_append (h'.nodup_visited hvisited))
      (List.mem_flatten.mpr ⟨b :: bs, by simp, List.mem_cons_self⟩) hx
  have hbr : b ≠ ret := by
    rintro rfl
    exact hnot (List.mem_append_left zs (List.mem_of_mem_head? hhead))
  refine ⟨⟨reserveExtend l.c b ret, some b, l.freed⟩, by simp only [hret], .inr ⟨rfl, hs₁, hs₂, segs₁,
    segs₂, bs, ys, zs, by simp, rfl, h',
    Finished.recut_extend h' hb hsizes.nonneg hvisited hfin hhead hsmall, hfin.maxObjSize, rfl,
    hfin.freed, hfin.ne_nil, fun hnil => absurd hnil (List.cons_ne_nil _ _), fun _ => ?_⟩⟩
  show ((reserveExtend l.c b ret).block b).len = _
  rw [reserveExtend, SharedContext.upd_block_of_ne _ _ _ hbr, SharedContext.upd_block_self,
    hfin.block_other hnot]

theorem Tiled.reserveRow (h : Tiled n s hs as) (hsizes : Sizes n s.c) {b : ℕ} (hb : b ∈ s.rows)
    (href : (s.c.block b).refcount ≠ 0) (hmin : 1 ≤ dataLen) (hmax : dataLen < 2 ^ 31) :
    ∃ t, ShctxCall.run s (.reserveHot (some b) dataLen) = .ok t ∧ Advances n s t hs := by
  obtain ⟨r, hr, ⟨hc, hfreed, -⟩ | ⟨-, hs₁, hs₂, segs₁, segs₂, bs, ys, zs, rfl, rfl, hgrown⟩⟩ :=
    h.reserveRow_grown hsizes hb href (by omega) hmax fun h0 => by omega
  · refine ⟨s, ?_, h.advances_self hsizes⟩
    rw [ShctxCall.run, hr]
    show Except.ok _ = _
    rw [hfreed, filter_take_zero, hc]
  · refine ⟨⟨r.c, s.rows.filter (· ∉ s.c.avail.take r.freed)⟩, ?_, ?_⟩
    · rw [ShctxCall.run, hr]
      rfl
    · exact hgrown.advances hsizes (fun b hb => .inr hb) fun b hb => hb

/-! ### Every call -/

theorem foldl_sizes {f : SharedContext → ℕ → SharedContext}
    (hf : ∀ c b, (f c b).blockSize = c.blockSize ∧ (f c b).maxObjSize = c.maxObjSize) :
    ∀ (bs : List ℕ) (c : SharedContext), (bs.foldl f c).blockSize = c.blockSize ∧
      (bs.foldl f c).maxObjSize = c.maxObjSize := by
  intro bs
  induction bs with
  | nil => exact fun c => ⟨rfl, rfl⟩
  | cons b bs ih =>
    intro c
    obtain ⟨h₁, h₂⟩ := ih (f c b)
    exact ⟨h₁.trans (hf c b).1, h₂.trans (hf c b).2⟩

theorem incHot_sizes (c : SharedContext) (b : ℕ) :
    (shctxRowIncHot c b).blockSize = c.blockSize ∧
      (shctxRowIncHot c b).maxObjSize = c.maxObjSize := by
  simp only [shctxRowIncHot, SharedContext.upd]
  split_ifs
  · exact foldl_sizes (f := shctxBlockSetHot) (fun _ _ => ⟨rfl, rfl⟩) _ _
  · exact ⟨rfl, rfl⟩

theorem decHot_sizes (c : SharedContext) (b : ℕ) :
    (shctxRowDecHot c b).blockSize = c.blockSize ∧
      (shctxRowDecHot c b).maxObjSize = c.maxObjSize := by
  simp only [shctxRowDecHot]
  split_ifs
  · exact foldl_sizes (f := shctxBlockSetAvail) (fun _ _ => ⟨rfl, rfl⟩) _ (c.upd b _)
  · exact ⟨rfl, rfl⟩

theorem Tiled.step (h : Tiled n s hs as) (hsizes : Sizes n s.c) {call : ShctxCall}
    (hpre : call.Pre s) : ∃ t, call.run s = .ok t ∧ Advances n s t hs := by
  -- the rows stay, where a call is no reservation
  have hkeep {c' : SharedContext} {hs' as' : List (List ℕ)} (ht : Tiled n { s with c := c' } hs' as')
      (hbs : c'.blockSize = s.c.blockSize) (hmax : c'.maxObjSize = s.c.maxObjSize)
      (hspared : Spared hs (hs' ++ as')) : Advances n s { s with c := c' } hs :=
    ⟨hs', as', ht, hsizes.of_eq hbs hmax, hspared, fun _ hb _ => hb⟩
  cases call with
  | reserveHot first dataLen =>
    rcases first with - | b
    · exact h.reserveNew hsizes hpre
    · exact h.reserveRow hsizes hpre.1 hpre.2.1 hpre.2.2.1 hpre.2.2.2
  | incHot b =>
    obtain ⟨hs', as', ht, hperm⟩ := h.incHot hpre.1 hpre.2
    exact ⟨_, rfl, hkeep ht (incHot_sizes s.c b).1 (incHot_sizes s.c b).2 (spared_of_perm hperm)⟩
  | decHot b =>
    obtain ⟨hs', as', ht, hperm⟩ := h.decHot hpre.1 hpre.2
    exact ⟨_, rfl, hkeep ht (decHot_sizes s.c b).1 (decHot_sizes s.c b).2 (spared_of_perm hperm)⟩
  | dataAppend b len =>
    have ht := h.dataAppend len hpre.1
    refine ⟨_, rfl, hkeep ht ?_ ?_ (spared_of_perm (List.Perm.refl _))⟩
    · rw [shctxRowDataAppend]
      split_ifs <;> rfl
    · rw [shctxRowDataAppend]
      split_ifs <;> rfl

/-! ### Blocks of rows -/

/-- The blocks of a row: from its first block on, in the list that has it. -/
def rowBlocks (c : SharedContext) (b : ℕ) : List ℕ :=
  listFrom (if b ∈ c.hot then c.hot else c.avail) b (c.block b).blockCount

theorem Tiled.rowBlocks_eq (h : Tiled n s hs as) {b : ℕ} {bs : List ℕ}
    (hseg : b :: bs ∈ hs ++ as) : rowBlocks s.c b = b :: bs := by
  have hcount : (s.c.block b).blockCount = (b :: bs).length := by
    obtain ⟨x, xs, hx, hc⟩ := h.tiles _ hseg
    obtain ⟨rfl, -⟩ := List.cons.inj hx
    exact hc
  have hnodup := List.nodup_append.mp h.nodup_lists
  have hvisit {list : List ℕ} {segs : List (List ℕ)} (hlist : list = segs.flatten)
      (hnd : list.Nodup) (hmem : b :: bs ∈ segs) :
      listFrom list b (s.c.block b).blockCount = b :: bs := by
    obtain ⟨segs₁, segs₂, rfl⟩ := List.append_of_mem hmem
    rw [hlist, hcount]
    exact listFrom_flatten (hlist ▸ hnd)
  rw [rowBlocks]
  rcases List.mem_append.mp hseg with hmem | hmem
  · have hb : b ∈ s.c.hot := by
      rw [h.hot]
      exact List.mem_flatten.mpr ⟨_, hmem, List.mem_cons_self⟩
    rw [if_pos hb]
    exact hvisit h.hot hnodup.1 hmem
  · have hb : b ∉ s.c.hot := by
      intro hb
      refine (List.disjoint_of_nodup_append h.nodup_lists) hb ?_
      rw [h.avail]
      exact List.mem_flatten.mpr ⟨_, hmem, List.mem_cons_self⟩
    rw [if_neg hb]
    exact hvisit h.avail hnodup.2.1 hmem

/-- No block is lost, and none is in two places. -/
structure BlocksConserved (n : ℕ) (s : RowCache) : Prop where
  lists : (s.c.hot ++ s.c.avail).Perm (List.range n)
  nbav : s.c.nbav = s.c.avail.length
  rows : ∀ b ∈ s.rows, (rowBlocks s.c b).head? = some b ∧
    (rowBlocks s.c b).length = (s.c.block b).blockCount ∧
    (s.c.block b).lastReserved = (rowBlocks s.c b).getLast?
  disjoint : ∀ b ∈ s.rows, ∀ b' ∈ s.rows, b ≠ b' → (rowBlocks s.c b).Disjoint (rowBlocks s.c b')

/-- A call takes no block from a row with references: the row exists afterwards, and
its blocks are still its first ones.  None of them was available. -/
def Spares (s t : RowCache) : Prop :=
  ∀ b ∈ s.rows, (s.c.block b).refcount ≠ 0 →
    b ∈ t.rows ∧ rowBlocks s.c b <+: rowBlocks t.c b ∧ ∀ x ∈ rowBlocks s.c b, x ∉ s.c.avail

theorem Tiled.conserved (h : Tiled n s hs as) : BlocksConserved n s := by
  refine ⟨?_, ?_, ?_, ?_⟩
  · rw [h.hot, h.avail, ← List.flatten_append]
    exact h.perm
  · rw [h.nbav, h.avail]
  · intro b hb
    obtain ⟨bs, hseg, hcount, hlast⟩ := h.segment hb
    rw [h.rowBlocks_eq hseg]
    exact ⟨rfl, hcount.symm, hlast⟩
  · intro b hb b' hb' hne
    obtain ⟨bs, hseg, -, -⟩ := h.segment hb
    obtain ⟨bs', hseg', -, -⟩ := h.segment hb'
    rw [h.rowBlocks_eq hseg, h.rowBlocks_eq hseg']
    intro x hx hx'
    have heq := segment_unique h.nodup hseg hseg' hx hx'
    exact hne (List.cons.inj heq).1

theorem Tiled.spares (h : Tiled n s hs as) {t : RowCache} (hadv : Advances n s t hs) :
    Spares s t := by
  obtain ⟨hs', as', ht, -, hspared, hrows⟩ := hadv
  intro b hb hpos
  obtain ⟨bs, hseg, -, -⟩ := h.segment hb
  have hhot := h.mem_hot hseg hpos
  obtain ⟨seg', hseg', hpre⟩ := hspared _ hhot
  obtain ⟨more, rfl⟩ := hpre
  refine ⟨hrows b hb hpos, ?_, ?_⟩
  · rw [h.rowBlocks_eq hseg, ht.rowBlocks_eq hseg']
    exact List.prefix_append (b :: bs) more
  · rw [h.rowBlocks_eq hseg]
    intro x hx havail
    refine (List.disjoint_of_nodup_append h.nodup_lists) ?_ havail
    rw [h.hot]
    exact List.mem_flatten.mpr ⟨_, hhot, hx⟩

/-! ### Runs -/

/-- The cache after `shctx_init`. -/
def initCache (maxblocks : ℕ) (blocksize : ℤ) (maxobjsz : ℕ) : RowCache :=
  ⟨shctxInit maxblocks blocksize maxobjsz, []⟩

theorem tiled_init (n : ℕ) (blocksize : ℤ) (maxobjsz : ℕ) :
    Tiled n (initCache n blocksize maxobjsz) [] ((List.range n).map fun b => [b]) := by
  have hflat : ((List.range n).map fun b => [b]).flatten = List.range n :=
    List.flatMap_singleton' _
  refine ⟨rfl, hflat.symm, ?_, ?_, ?_, ?_, ?_, ?_, ?_, ?_, ?_⟩
  · rw [List.nil_append, hflat]
  · rw [hflat, List.length_range]
    rfl
  · intro seg hseg
    obtain ⟨b, -, rfl⟩ := List.mem_map.mp hseg
    exact ⟨b, [], rfl, rfl⟩
  · intro seg _ b _
    rfl
  · intro seg hseg
    cases hseg
  · intro seg _ b _
    rfl
  · intro b hb
    cases hb
  · intro b hb
    cases hb
  · intro b hb
    cases hb

/-- A run loses no block, and no call of it takes a block from a row with references. -/
def RunConserves (n : ℕ) (s₀ : RowCache) (calls : List ShctxCall) : Prop :=
  ∃ t, calls.foldlM ShctxCall.run s₀ = .ok t ∧ BlocksConserved n t ∧
    ∀ pre call s s', pre ++ [call] <+: calls → pre.foldlM ShctxCall.run s₀ = .ok s →
      call.run s = .ok s' → Spares s s'

/-- **Blocks are conserved**, in every run of calls that meet their conditions. -/
theorem shctx_conserved {blocksize : ℤ} {maxobjsz : ℕ} {calls : List ShctxCall}
    (hbs : 0 ≤ shctxBlockSize blocksize)
    (hsmall : n * shctxBlockSize blocksize < 2 ^ 31 ∨
      0 < maxobjsz ∧ maxobjsz + shctxBlockSize blocksize ≤ 2 ^ 31)
    (hmeet : StepsMeet ShctxCall.run (fun s call => call.Pre s) (initCache n blocksize maxobjsz) calls) :
    RunConserves n (initCache n blocksize maxobjsz) calls := by
  have hsizes : Sizes n (initCache n blocksize maxobjsz).c :=
    ⟨hbs, Int.bmod_lt (by decide), hsmall⟩
  have hstep : ∀ (s : RowCache) (call : ShctxCall),
      (∃ hs as, Tiled n s hs as ∧ Sizes n s.c) → call.Pre s →
      ∃ t, call.run s = .ok t ∧ ∃ hs as, Tiled n t hs as ∧ Sizes n t.c := by
    rintro s call ⟨hs, as, h, hsz⟩ hpre
    obtain ⟨t, hrun, hs', as', ht, hsz', -, -⟩ := h.step hsz hpre
    exact ⟨t, hrun, hs', as', ht, hsz'⟩
  have hstart : ∃ hs as, Tiled n (initCache n blocksize maxobjsz) hs as ∧
      Sizes n (initCache n blocksize maxobjsz).c := ⟨_, _, tiled_init n blocksize maxobjsz, hsizes⟩
  obtain ⟨t, hrun, hs, as, ht, -⟩ := foldlM_safe hstep hstart hmeet
  refine ⟨t, hrun, ht.conserved, ?_⟩
  intro pre call s s' hpre hs₁ hcall
  -- the calls before this one are such a run, too
  obtain ⟨s₁, hs₁', hs, as, h, hsz⟩ := foldlM_safe hstep hstart
    fun pre' x s hp => hmeet pre' x s (hp.trans ((List.prefix_append pre [call]).trans hpre))
  obtain rfl : s₁ = s := Except.ok.inj (hs₁'.symm.trans hs₁)
  obtain ⟨t', ht', hadv⟩ := h.step hsz (hmeet pre call _ hpre hs₁)
  obtain rfl : t' = s' := Except.ok.inj (ht'.symm.trans hcall)
  exact h.spares hadv

instance ShctxCall.decidablePre (s : RowCache) : (call : ShctxCall) → Decidable (call.Pre s)
  | .reserveHot none _ => Int.decLt _ _
  | .reserveHot (some _) _ => inferInstanceAs (Decidable (_ ∧ _ ∧ _ ∧ _))
  | .incHot _ => inferInstanceAs (Decidable (_ ∧ _))
  | .decHot _ => inferInstanceAs (Decidable (_ ∧ _))
  | .dataAppend _ _ => inferInstanceAs (Decidable (_ ∧ _))

/-- A row of two blocks is reserved, and extended by a third one. -/
theorem shctx_conserved_extend :
    RunConserves 4 (initCache 4 8 0) [.reserveHot none 16, .reserveHot (some 0) 20] := by
  refine shctx_conserved (by decide) (.inl (by decide)) ?_
  refine stepsMeet_cons (by decide) ?_
  rintro t ht
  obtain rfl := Except.ok.inj ht
  exact stepsMeet_cons (by decide) fun t _ => stepsMeet_nil _ _ t

/-! ### Calls without a reference -/

/-- The calls are made on rows that exist; rows that are extended are hot. -/
def ShctxCall.OnRow (s : RowCache) : ShctxCall → Prop
  | .reserveHot none dataLen => dataLen < 2 ^ 31
  | .reserveHot (some first) dataLen =>
    first ∈ s.rows ∧ (s.c.block first).refcount ≠ 0 ∧ 1 ≤ dataLen ∧ dataLen < 2 ^ 31
  | .incHot first => first ∈ s.rows
  | .decHot first => first ∈ s.rows
  | .dataAppend first _ => first ∈ s.rows

instance ShctxCall.decidableOnRow (s : RowCache) : (call : ShctxCall) → Decidable (call.OnRow s)
  | .reserveHot none _ => Int.decLt _ _
  | .reserveHot (some _) _ => inferInstanceAs (Decidable (_ ∧ _ ∧ _ ∧ _))
  | .incHot _ => inferInstanceAs (Decidable (_ ∈ _))
  | .decHot _ => inferInstanceAs (Decidable (_ ∈ _))
  | .dataAppend _ _ => inferInstanceAs (Decidable (_ ∈ _))

/-- A row is released twice, and has 2^32 - 1 references then, but it is available:
the next reservation takes its block. -/
def releasedTwice : List ShctxCall :=
  [.reserveHot none 8, .decHot 0, .decHot 0, .reserveHot none 16]

/-- A block size of 32768 is negative as a `short`: with no number of blocks is
there enough, and the row is never completed. -/
theorem not_shctx_conserved :
    (StepsMeet ShctxCall.run (fun s call => call.OnRow s) (initCache 2 8 0) releasedTwice ∧
      ¬ RunConserves 2 (initCache 2 8 0) releasedTwice) ∧
    StepsMeet ShctxCall.run (fun s call => call.OnRow s) (initCache 1 32768 0) [.reserveHot none 1] ∧
      ¬ RunConserves 1 (initCache 1 32768 0) [.reserveHot none 1] := by
  refine ⟨⟨?_, ?_⟩, ?_, ?_⟩
  · refine stepsMeet_cons (by decide) ?_
    rintro t ht
    obtain rfl := Except.ok.inj ht
    refine stepsMeet_cons (by decide) ?_
    rintro t ht
    obtain rfl := Except.ok.inj ht
    refine stepsMeet_cons (by decide) ?_
    rintro t ht
    obtain rfl := Except.ok.inj ht
    exact stepsMeet_cons (by decide) fun t _ => stepsMeet_nil _ _ t
  · rintro ⟨t, -, -, hspares⟩
    have hlast := hspares [.reserveHot none 8, .decHot 0, .decHot 0] (.reserveHot none 16) _ _
      (List.prefix_refl _) rfl rfl
    have hgone := (hlast 0 (by decide) (by decide)).1
    revert hgone
    decide
  · exact stepsMeet_cons (by decide) fun t _ => stepsMeet_nil _ _ t
  · rintro ⟨t, ht, hcons, -⟩
    obtain rfl := Except.ok.inj ht
    have hlast := (hcons.rows 0 (by decide)).2.2
    revert hlast
    decide

end SmartHAProxy
