/-
The loops of `shctx_row_reserve_hot`.

The two loops visit the blocks of `avail` in their order: row by row until there
is enough, and then to the end of the row.  `Progress` describes the variables
while there is not enough yet, `Finished` when there is.  One block leads from
`Progress` to one of both (`Progress.block`), and so does a row (`Progress.row`).

`pre` and `post` are the parts of the hot list before and behind the place where
the blocks go.
-/
import SmartHAProxy.Shctx.Row
import Mathlib.Tactic.Ring
import Mathlib.Tactic.Linarith

namespace SmartHAProxy

variable {b : ℕ}

variable {c : SharedContext} {pre post taken left rest : List ℕ} {need : ℤ} {r : Reserving}

/-! ### Lists -/

theorem listInsert_append {head s : ℕ} {xs ys : List ℕ} (h : head ∉ xs) :
    listInsert head s (xs ++ head :: ys) = xs ++ head :: s :: ys := by
  induction xs with
  | nil => simp [listInsert]
  | cons x xs ih =>
    have hne : x ≠ head := fun hx => h (hx ▸ List.mem_cons_self)
    have hnot : head ∉ xs := fun hx => h (List.mem_cons_of_mem x hx)
    rw [List.cons_append, listInsert, if_neg hne, ih hnot, List.cons_append]

theorem listInsert_of_not_mem {head s : ℕ} {xs : List ℕ} (h : head ∉ xs) :
    listInsert head s xs = xs := by
  induction xs with
  | nil => rfl
  | cons x xs ih =>
    have hne : x ≠ head := fun hx => h (hx ▸ List.mem_cons_self)
    have hnot : head ∉ xs := fun hx => h (List.mem_cons_of_mem x hx)
    rw [listInsert, if_neg hne, ih hnot]

/-! ### Invariants of the loops -/

def visitedBlock (b : SharedBlock) : SharedBlock := { b with blockCount := 1, len := 0 }

/-- Where the next block goes: to the end of the list, or behind the last block of the row. -/
def GoesBehind (last : Option ℕ) (front post : List ℕ) : Prop :=
  last = none ∧ post = [] ∨ last ≠ none ∧ last = front.getLast?

/-- There is not enough yet: `taken` has been moved to the hot list. -/
structure Progress (c : SharedContext) (need : ℤ) (pre post taken rest : List ℕ) (r : Reserving) :
    Prop where
  hot : r.c.hot = pre ++ taken ++ post
  avail : r.c.avail = rest
  nbav : r.c.nbav = rest.length
  maxObjSize : r.c.maxObjSize = c.maxObjSize
  blockSize : r.c.blockSize = c.blockSize
  block : ∀ b, r.c.block b = if b ∈ taken then visitedBlock (c.block b) else c.block b
  dataLen : r.dataLen = need - taken.length * c.blockSize
  short : taken = [] ∨ taken.length * c.blockSize < need
  enough : r.enough = false
  freed : r.freed = taken.length
  last : GoesBehind r.last (pre ++ taken) post
  nodup : (pre ++ taken ++ post ++ rest).Nodup

/-- What the first block of the reservation becomes. -/
def reservedBlock (b : SharedBlock) (taken : List ℕ) : SharedBlock :=
  { b with blockCount := taken.length, len := 0, refcount := 1, lastReserved := taken.getLast? }

/-- There is enough: `taken` has been moved, `left` is what is left of the last
row that was visited. -/
structure Finished (c : SharedContext) (need : ℤ) (pre post taken left rest : List ℕ)
    (r : Reserving) : Prop where
  hot : r.c.hot = pre ++ taken ++ post
  avail : r.c.avail = left ++ rest
  nbav : r.c.nbav = (left ++ rest).length
  maxObjSize : r.c.maxObjSize = c.maxObjSize
  blockSize : r.c.blockSize = c.blockSize
  block : ∀ b, r.c.block b
    = if taken.head? = some b then reservedBlock (c.block b) taken
      else if b ∈ taken ++ left then visitedBlock (c.block b) else c.block b
  dataLen : r.dataLen ≤ 0
  tight : taken.length = 1 ∨ (taken.length - 1 : ℤ) * c.blockSize < need
  enough : r.enough = true
  freed : r.freed = (taken ++ left).length
  ret : r.ret = taken.head?
  ne_nil : taken ≠ []

/-! ### One block -/

/-- The block at the head of `avail` goes to its place in the hot list. -/
def moveHot (c : SharedContext) (last : Option ℕ) (b : ℕ) : SharedContext :=
  match last with
  | some last => shctxBlockAppendHot c last b
  | none => shctxBlockSetHot c b

theorem moveHot_spec {last : Option ℕ} (hhot : c.hot = pre ++ taken ++ post)
    (havail : c.avail = b :: rest) (hnbav : c.nbav = (b :: rest).length)
    (hlast : GoesBehind last (pre ++ taken) post)
    (hnodup : (pre ++ taken ++ post ++ b :: rest).Nodup) :
    moveHot c last b = { c with
      hot := pre ++ (taken ++ [b]) ++ post, avail := rest, nbav := rest.length } := by
  have hb : b ∉ pre ++ taken ++ post := fun hmem =>
    (List.disjoint_of_nodup_append hnodup) hmem List.mem_cons_self
  have hnb : c.nbav - 1 = rest.length := by rw [hnbav, List.length_cons, Nat.add_sub_cancel]
  rcases hlast with ⟨rfl, rfl⟩ | ⟨hne, hlast⟩
  · rw [moveHot, shctxBlockSetHot, hhot, havail, hnb, List.erase_of_not_mem hb, List.erase_cons_head]
    simp
  · obtain ⟨l, rfl⟩ := Option.ne_none_iff_exists'.mp hne
    obtain ⟨front, hfront⟩ := List.getLast?_eq_some_iff.mp hlast.symm
    rw [hfront] at hnodup hb hhot
    have hl : l ∉ front := by
      intro hmem
      have hnd : (front ++ [l]).Nodup := (List.nodup_append.mp (List.nodup_append.mp hnodup).1).1
      exact (List.disjoint_of_nodup_append hnd) hmem (List.mem_singleton_self l)
    have hl' : l ∉ rest := by
      intro hmem
      refine (List.disjoint_of_nodup_append hnodup) ?_ (List.mem_cons_of_mem b hmem)
      simp
    have hhot' : c.hot = front ++ l :: post := by rw [hhot]; simp
    have hres : pre ++ (taken ++ [b]) ++ post = front ++ l :: b :: post := by
      rw [← List.append_assoc pre, hfront]
      simp
    rw [moveHot, shctxBlockAppendHot, hhot, List.erase_of_not_mem hb, havail, List.erase_cons_head,
      listInsert_of_not_mem hl', hnb, hres]
    simp [listInsert_append hl]

theorem GoesBehind.next {last : Option ℕ} {front : List ℕ} (h : GoesBehind last front post) (b : ℕ) :
    GoesBehind (last.map fun _ => b) (front ++ [b]) post := by
  rcases h with ⟨rfl, hpost⟩ | ⟨hne, -⟩
  · exact .inl ⟨rfl, hpost⟩
  · obtain ⟨l, rfl⟩ := Option.ne_none_iff_exists'.mp hne
    right
    simp

/-- The context after the move of a block. -/
def afterMove (c : SharedContext) (b : ℕ) (hot avail : List ℕ) : SharedContext :=
  { c.upd b visitedBlock with hot := hot, avail := avail, nbav := avail.length }

theorem Progress.reserveBlock_eq (h : Progress c need pre post taken (b :: rest) r) :
    let c' := afterMove r.c b (pre ++ (taken ++ [b]) ++ post) rest
    let dataLen := r.dataLen - r.c.blockSize
    reserveBlock r b
      = if dataLen ≤ 0 then
          ⟨match r.ret with
            | some ret => c'.upd ret fun b' =>
              { b' with blockCount := r.freed + 1, refcount := 1, lastReserved := some b }
            | none => c', dataLen, true, r.freed + 1, r.last.map fun _ => b, r.ret⟩
        else ⟨c', dataLen, false, r.freed + 1, r.last.map fun _ => b, r.ret⟩ := by
  intro c' dataLen
  have hmove : moveHot (r.c.upd b visitedBlock) r.last b = c' :=
    moveHot_spec h.hot h.avail h.nbav h.last h.nodup
  rw [← hmove, reserveBlock]
  simp only [h.enough, or_true, if_true]
  rfl

theorem Progress.nodup_next (h : Progress c need pre post taken (b :: rest) r) :
    (pre ++ (taken ++ [b]) ++ post ++ rest).Nodup := by
  refine h.nodup.perm ?_
  simp only [List.append_assoc]
  refine List.Perm.append_left pre (List.Perm.append_left taken ?_)
  simp [List.perm_middle]

theorem Progress.block_next (h : Progress c need pre post taken (b :: rest) r) (b' : ℕ) :
    (r.c.upd b visitedBlock).block b'
      = if b' ∈ taken ++ [b] then visitedBlock (c.block b') else c.block b' := by
  have hb : b ∉ taken := by
    intro hmem
    refine (List.disjoint_of_nodup_append h.nodup) ?_ List.mem_cons_self
    simp [hmem]
  rcases eq_or_ne b' b with rfl | hne
  · simp [h.block, hb]
  · simp [SharedContext.upd_block_of_ne _ _ _ hne, h.block, hne]

theorem Progress.block_short (h : Progress c need pre post taken (b :: rest) r)
    (hshort : (taken.length + 1) * c.blockSize < need) :
    Progress c need pre post (taken ++ [b]) rest (reserveBlock r b) ∧
      (reserveBlock r b).ret = r.ret := by
  have hlen : r.dataLen - r.c.blockSize = need - (taken ++ [b]).length * c.blockSize := by
    rw [h.dataLen, h.blockSize, List.length_append, List.length_singleton, Nat.cast_add, Nat.cast_one]
    ring
  have hpos : ¬ r.dataLen - r.c.blockSize ≤ 0 := by
    rw [hlen, List.length_append, List.length_singleton, Nat.cast_add, Nat.cast_one]
    omega
  rw [h.reserveBlock_eq, if_neg hpos]
  refine ⟨⟨rfl, rfl, rfl, h.maxObjSize, h.blockSize, h.block_next, hlen, .inr ?_, rfl, ?_, ?_,
    h.nodup_next⟩, rfl⟩
  · rw [List.length_append, List.length_singleton, Nat.cast_add, Nat.cast_one]
    exact hshort
  · rw [h.freed, List.length_append, List.length_singleton]
  · rw [← List.append_assoc]
    exact h.last.next b

theorem Progress.block_enough (h : Progress c need pre post taken (b :: rest) r)
    (hret : r.ret = (taken ++ b :: rest).head?)
    (henough : need ≤ (taken.length + 1) * c.blockSize) :
    Finished c need pre post (taken ++ [b]) [] rest (reserveBlock r b) := by
  have hhead : (taken ++ b :: rest).head? = (taken ++ [b]).head? := by
    rcases taken with - | ⟨x, xs⟩ <;> rfl
  have hlen : r.dataLen - r.c.blockSize ≤ 0 := by
    rw [h.dataLen, h.blockSize]
    linarith
  obtain ⟨ret, hsome⟩ : ∃ ret, (taken ++ [b]).head? = some ret :=
    Option.isSome_iff_exists.mp (by simp)
  have hret' : r.ret = some ret := by rw [hret, hhead, hsome]
  have hmem : ret ∈ taken ++ [b] := List.mem_of_mem_head? hsome
  rw [h.reserveBlock_eq, if_pos hlen, hret']
  refine ⟨rfl, rfl, rfl, h.maxObjSize, h.blockSize, fun b' => ?_, hlen, ?_, rfl, ?_, hsome.symm, by simp⟩
  · rw [hsome, List.append_nil]
    rcases eq_or_ne b' ret with rfl | hne
    · have hfreed : r.freed + 1 = (taken ++ [b]).length := by
        rw [h.freed, List.length_append, List.length_singleton]
      have hb : (afterMove r.c b (pre ++ (taken ++ [b]) ++ post) rest).block b'
          = visitedBlock (c.block b') := (h.block_next b').trans (if_pos hmem)
      rw [if_pos rfl, SharedContext.upd_block_self, hb, hfreed]
      simp [reservedBlock, visitedBlock]
    · rw [if_neg (fun heq => hne (Option.some.inj heq).symm), SharedContext.upd_block_of_ne _ _ _ hne]
      exact h.block_next b'
  · rcases h.short with rfl | hshort
    · exact .inl rfl
    · right
      simpa using hshort
  · rw [h.freed, List.append_nil, List.length_append, List.length_singleton]

theorem Finished.block_left (h : Finished c need pre post taken left (b :: rest) r)
    (hbs : 0 ≤ c.blockSize) (hb : b ∉ taken) :
    Finished c need pre post taken (left ++ [b]) rest (reserveBlock r b) := by
  have hskip : ¬ (r.dataLen - r.c.blockSize > 0 ∨ r.enough = false) := by
    rw [h.blockSize, h.enough]
    have := h.dataLen
    simp
    linarith
  have heq : reserveBlock r b
      = ⟨r.c.upd b visitedBlock, r.dataLen - r.c.blockSize, r.enough, r.freed + 1, r.last, r.ret⟩ :=
    if_neg hskip
  rw [heq]
  refine ⟨h.hot, ?_, ?_, h.maxObjSize, h.blockSize, fun b' => ?_, ?_, h.tight, h.enough, ?_, h.ret,
    h.ne_nil⟩
  · show r.c.avail = _
    rw [h.avail]
    simp
  · show r.c.nbav = _
    rw [h.nbav]
    simp
  · have hhead : taken.head? ≠ some b := fun hmem => hb (List.mem_of_mem_head? hmem)
    show (r.c.upd b visitedBlock).block b' = _
    rcases eq_or_ne b' b with rfl | hne
    · rw [SharedContext.upd_block_self, h.block, if_neg hhead, if_neg hhead]
      split_ifs <;> simp_all [visitedBlock]
    · rw [SharedContext.upd_block_of_ne _ _ _ hne, h.block]
      simp [hne]
  · have := h.dataLen
    rw [h.blockSize]
    linarith
  · rw [h.freed]
    simp [Nat.add_assoc]

theorem Finished.blocks_left {bs : List ℕ} (hbs : 0 ≤ c.blockSize) :
    ∀ {left : List ℕ} {r : Reserving}, Finished c need pre post taken left (bs ++ rest) r →
      (∀ b ∈ bs, b ∉ taken) →
      Finished c need pre post taken (left ++ bs) rest (bs.foldl reserveBlock r) := by
  induction bs with
  | nil =>
    intro left r h _
    simpa using h
  | cons b bs ih =>
    intro left r h hnot
    have hnext := h.block_left hbs (hnot b List.mem_cons_self)
    have hall := ih hnext fun b' hb' => hnot b' (List.mem_cons_of_mem b hb')
    simpa using hall

/-! ### One row -/

theorem Progress.row (hbs : 0 ≤ c.blockSize) {seg : List ℕ} :
    ∀ {taken : List ℕ} {r : Reserving}, Progress c need pre post taken (seg ++ rest) r →
      r.ret = (taken ++ (seg ++ rest)).head? →
      (Progress c need pre post (taken ++ seg) rest (seg.foldl reserveBlock r) ∧
        (seg.foldl reserveBlock r).ret = r.ret) ∨
      ∃ ys zs, seg = ys ++ zs ∧
        Finished c need pre post (taken ++ ys) zs rest (seg.foldl reserveBlock r) := by
  induction seg with
  | nil =>
    intro taken r h _
    left
    simpa using h
  | cons b seg ih =>
    intro taken r h hret
    rcases lt_or_ge ((taken.length + 1) * c.blockSize) need with hshort | henough
    · obtain ⟨hnext, hret'⟩ := h.block_short hshort
      have hret'' : (reserveBlock r b).ret = (taken ++ [b] ++ (seg ++ rest)).head? := by
        rw [hret', hret]
        simp
      rcases ih hnext hret'' with ⟨hprog, hkeep⟩ | ⟨ys, zs, hseg, hfin⟩
      · left
        exact ⟨by simpa using hprog, hkeep.trans hret'⟩
      · right
        exact ⟨b :: ys, zs, by rw [hseg]; rfl, by simpa using hfin⟩
    · right
      have hfin := h.block_enough hret henough
      have hnot : ∀ b' ∈ seg, b' ∉ taken ++ [b] := by
        intro b' hb' hmem
        have hnd := h.nodup_next
        refine (List.disjoint_of_nodup_append hnd) (a := b') ?_ (List.mem_append_left rest hb')
        simp only [List.mem_append] at hmem ⊢
        tauto
      exact ⟨[b], seg, rfl, by simpa using hfin.blocks_left hbs hnot⟩

/-! ### All rows -/

/-- Each segment is a row or a free block: its first block has its length. -/
def Tiles (block : ℕ → SharedBlock) (segs : List (List ℕ)) : Prop :=
  ∀ seg ∈ segs, ∃ b bs, seg = b :: bs ∧ (block b).blockCount = seg.length

theorem Progress.block_of_rest (h : Progress c need pre post taken rest r) (hb : b ∈ rest) :
    r.c.block b = c.block b := by
  rw [h.block, if_neg]
  intro hmem
  refine (List.disjoint_of_nodup_append h.nodup) (a := b) ?_ hb
  simp [hmem]

theorem Progress.reserveLoop_succ {bs : List ℕ}
    (h : Progress c need pre post taken (b :: bs ++ rest) r)
    (hcount : (c.block b).blockCount = (b :: bs).length) (fuel : ℕ) :
    reserveLoop (fuel + 1) r
      = reserveLoop fuel ((b :: bs).foldl reserveBlock { r with ret := r.ret.or (some b) }) := by
  have hblock : (r.c.block b).blockCount = (b :: bs).length := by
    rw [h.block_of_rest (by simp), hcount]
  have havail : r.c.avail = b :: (bs ++ rest) := h.avail
  have htake : r.c.avail.take (max 1 (r.c.block b).blockCount) = b :: bs := by
    rw [hblock, h.avail, Nat.max_eq_right (by simp)]
    exact List.take_left
  simp only [reserveLoop, h.enough, Bool.false_eq_true, if_false]
  split
  · rename_i hnil
    rw [havail] at hnil
    cases hnil
  · rename_i next _ hcons
    rw [havail] at hcons
    obtain ⟨rfl, -⟩ := List.cons.inj hcons
    rw [htake]

theorem reserveLoop_of_enough (h : r.enough = true) (fuel : ℕ) : reserveLoop fuel r = r := by
  rcases fuel with - | fuel
  · rfl
  · simp [reserveLoop, h]

/-- The loops end with enough blocks, if there are enough. -/
theorem Progress.reserveLoop {segs : List (List ℕ)} (hbs : 0 ≤ c.blockSize)
    (htiles : Tiles c.block segs) :
    ∀ {taken : List ℕ} {r : Reserving} {fuel : ℕ},
      Progress c need pre post taken segs.flatten r → (segs = [] → taken ≠ []) →
      r.ret = none ∧ taken = [] ∨ r.ret = (taken ++ segs.flatten).head? →
      need ≤ (taken.length + segs.flatten.length) * c.blockSize → segs.length ≤ fuel →
      ∃ segs₁ segs₂ ys zs, segs = segs₁ ++ segs₂ ∧ segs₁.flatten = ys ++ zs ∧
        Finished c need pre post (taken ++ ys) zs segs₂.flatten (reserveLoop fuel r) := by
  induction segs with
  | nil =>
    intro taken r fuel h hne _ hneed _
    -- all blocks have been taken, and there would not be enough
    rcases h.short with hnil | hshort
    · exact absurd hnil (hne rfl)
    · simp only [List.flatten_nil, List.length_nil, Nat.cast_zero, add_zero] at hneed
      exact absurd hshort (not_lt.mpr hneed)
  | cons seg segs ih =>
    intro taken r fuel h _ hret hneed hfuel
    obtain ⟨b, bs, rfl, hcount⟩ := htiles seg List.mem_cons_self
    obtain ⟨fuel, rfl⟩ : ∃ k, fuel = k + 1 := Nat.exists_eq_succ_of_ne_zero (by
      simp only [List.length_cons] at hfuel; omega)
    rw [List.flatten_cons] at h hret hneed
    rw [h.reserveLoop_succ hcount]
    have hret' : r.ret.or (some b) = (taken ++ (b :: bs ++ segs.flatten)).head? := by
      rcases hret with ⟨hnone, rfl⟩ | hsome
      · rw [hnone]
        rfl
      · rw [hsome]
        rcases taken with - | ⟨x, xs⟩ <;> rfl
    have h' : Progress c need pre post taken (b :: bs ++ segs.flatten)
        { r with ret := r.ret.or (some b) } :=
      ⟨h.hot, h.avail, h.nbav, h.maxObjSize, h.blockSize, h.block, h.dataLen, h.short, h.enough,
        h.freed, h.last, h.nodup⟩
    rcases h'.row hbs hret' with ⟨hprog, hkeep⟩ | ⟨ys, zs, hseg, hfin⟩
    · have htiles' : Tiles c.block segs := fun s hs => htiles s (List.mem_cons_of_mem _ hs)
      have hlen : segs.length ≤ fuel := by
        simp only [List.length_cons] at hfuel
        omega
      have hkeep' : ((b :: bs).foldl reserveBlock { r with ret := r.ret.or (some b) }).ret
          = (taken ++ b :: bs ++ segs.flatten).head? := by
        rw [hkeep, List.append_assoc]
        exact hret'
      have hneed' : need ≤ ((taken ++ b :: bs).length + segs.flatten.length) * c.blockSize := by
        simp only [List.length_append] at hneed ⊢
        push_cast at hneed ⊢
        linarith
      obtain ⟨segs₁, segs₂, ys, zs, hsegs, hflat, hfin⟩ :=
        ih htiles' hprog (fun _ => by simp) (.inr hkeep') hneed' hlen
      refine ⟨(b :: bs) :: segs₁, segs₂, b :: bs ++ ys, zs, by rw [hsegs]; rfl, ?_, ?_⟩
      · rw [List.flatten_cons, hflat, List.append_assoc]
      · rw [← List.append_assoc]
        exact hfin
    · refine ⟨[b :: bs], segs, ys, zs, rfl, by simpa using hseg, ?_⟩
      rwa [reserveLoop_of_enough hfin.enough]

end SmartHAProxy
