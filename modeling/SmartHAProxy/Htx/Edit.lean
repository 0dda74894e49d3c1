/-
Blocks of a message are edited in their place (`htx_prepare_blk_expansion`,
`htx_replace_blk_value`, `htx_replace_header`).

The room for a longer payload is found in one of three ways: behind the payload,
in a free room of the message, or after a defragmentation.  Here are the
functions, and what the first one finds: a place that is apart from the payloads
of the other blocks.

Main result: `Shape.prepareBlkExpansion`.
-/
import SmartHAProxy.Htx.Defrag

namespace SmartHAProxy

/-- `int32_t` of an integer. -/
def int32 (x : ℤ) : ℤ := (x + 2 ^ 31) % 2 ^ 32 - 2 ^ 31

/-- `uint32_t` plus `int32_t`. -/
def add32 (a : ℕ) (delta : ℤ) : ℕ := ((a + delta) % 2 ^ 32).toNat

theorem int32_eq {x : ℤ} (hlow : -2 ^ 31 ≤ x) (hhigh : x < 2 ^ 31) : int32 x = x := by
  rw [int32]
  omega

theorem add32_eq {a b : ℕ} {delta : ℤ} (h : (a : ℤ) + delta = b) (hb : b < 2 ^ 32) :
    add32 a delta = b := by
  rw [add32, h]
  omega

namespace HtxDesc

/-- The length of the name, 0 if there is none. -/
def nlen (d : HtxDesc) : ℕ := if d.named then d.nameLen else 0

theorem nlen_add_valueLen (d : HtxDesc) : d.nlen + d.valueLen = d.getBlksz := by
  rw [nlen, valueLen, getBlksz, nameLen]
  split_ifs
  · rfl
  · rw [Nat.zero_add]

end HtxDesc

namespace HtxBuf

/-- `htx_get_blk_name`. -/
def blkName (htx : HtxBuf) (pos : ℕ) : CStr := readAt htx.area (htx.blk pos).addr (htx.blk pos).nlen

/-- `htx_get_blk_value`, of a block with a value. -/
def blkValue (htx : HtxBuf) (pos : ℕ) : CStr :=
  readAt htx.area ((htx.blk pos).addr + (htx.blk pos).nlen) (htx.blk pos).valueLen

/-! ### The functions -/

/-- `htx_prepare_blk_expansion`. -/
def prepareBlkExpansion (htx : HtxBuf) (pos : ℕ) (delta : ℤ) : ℕ × HtxBuf :=
  let d := htx.blk pos
  let headroom := sub32 htx.endAddr htx.headAddr
  let tailroom := sub32 (sub32 htx.size (htx.tailSucc * 8)) htx.tailAddr
  let sz := d.getBlksz
  let inc := delta.toNat
  if delta ≤ 0 then
    -- it is a compression, it can be performed in place
    (1, { htx with
      tailAddr := if d.addr + sz = htx.tailAddr then add32 htx.tailAddr delta else htx.tailAddr
      headAddr :=
        if d.addr + sz ≠ htx.tailAddr ∧ d.addr + sz = htx.headAddr then add32 htx.headAddr delta
        else htx.headAddr })
  else if inc > htx.freeSpace then (0, htx)
  else if d.addr + sz = htx.tailAddr then
    -- the block's payload is just before the tail room
    if inc < tailroom then (1, { htx with tailAddr := htx.tailAddr + inc })
    else if sz + inc < headroom then
      let tailAddr := sub32 htx.tailAddr sz
      let headAddr := htx.headAddr + (sz + inc)
      let last := d.addr = htx.endAddr ∧ htx.endAddr = tailAddr
      (2, { htx with
        blk := Function.update htx.blk pos { d with addr := htx.headAddr }
        tailAddr := if last then headAddr else tailAddr
        headAddr := if last then 0 else headAddr
        endAddr :=
          if last then 0 else if d.addr = htx.endAddr then htx.endAddr + sz else htx.endAddr })
    else (3, htx)
  else if d.addr + sz = htx.headAddr then
    -- the block's payload is just before the head room
    if inc < headroom then (1, { htx with headAddr := htx.headAddr + inc }) else (3, htx)
  else if htx.headAddr = 0 ∧ sz + inc < tailroom then
    (2, { htx with
      blk := Function.update htx.blk pos { d with addr := htx.tailAddr }
      endAddr := if d.addr = htx.endAddr then htx.endAddr + sz else htx.endAddr
      tailAddr := htx.tailAddr + (sz + inc) })
  else if sz + inc < headroom then
    (2, { htx with
      blk := Function.update htx.blk pos { d with addr := htx.headAddr }
      endAddr := if d.addr = htx.endAddr then htx.endAddr + sz else htx.endAddr
      headAddr := htx.headAddr + (sz + inc) })
  else (3, htx)

/-- `htx_replace_blk_value`; the part of the value that is replaced has `k` bytes, after `o`. -/
def replaceBlkValue (trash : HtxTrash) (htx : HtxBuf) (pos o k : ℕ) (new : CStr) :
    Option ℕ × HtxBuf :=
  let d := htx.blk pos
  let v := d.addr + d.nlen
  let old := v + o
  let rest := d.valueLen - (o + k)
  let delta := int32 (new.length - k)
  let r := prepareBlkExpansion htx pos delta
  if r.1 = 0 then (none, r.2)
  else if r.1 = 1 then
    -- replace in place
    (some pos, { r.2 with
      area :=
        if delta ≤ 0 then shrinkAt r.2.area old k new rest else growAt r.2.area old k new rest
      blk := Function.update r.2.blk pos ((r.2.blk pos).setBlkValueLen (add32 d.valueLen delta))
      data := add32 r.2.data delta })
  else if r.1 = 2 then
    -- new address but no defrag
    let ptr := (r.2.blk pos).addr
    let area := writeAt r.2.area ptr (readAt r.2.area d.addr d.nlen)
    let area := writeAt area (ptr + d.nlen) (readAt area v o)
    let area := writeAt area (ptr + d.nlen + o) new
    (some pos, { r.2 with
      area := writeAt area (ptr + d.nlen + o + new.length) (readAt area (old + k) rest)
      blk := Function.update r.2.blk pos ((r.2.blk pos).setBlkValueLen (add32 d.valueLen delta))
      data := add32 r.2.data delta })
  else
    -- do a defrag first (it is always an expansion)
    let s := defrag trash r.2 (some pos) (d.setBlkValueLen (add32 d.valueLen delta)).info
    let offset : ℤ := int32 ((s.2.blk (s.1.getD 0)).addr - d.addr)
    (s.1, { s.2 with area := growAt s.2.area (old + offset).toNat k new rest })

/-- `htx_replace_header`. -/
def replaceHeader (trash : HtxTrash) (htx : HtxBuf) (pos : ℕ) (name value : CStr) :
    Option ℕ × HtxBuf :=
  let d := htx.blk pos
  if d.getBlkType ≠ htxBlkHdr then (none, htx)
  else
    let delta := int32 (name.length + value.length - d.getBlksz)
    let info := (htxBlkHdr * 2 ^ 28 + value.length * 2 ^ 8 + name.length) % 2 ^ 32
    let r := prepareBlkExpansion htx pos delta
    if r.1 = 0 then (none, r.2)
    else
      let s : Option ℕ × HtxBuf :=
        if r.1 = 3 then defrag trash r.2 (some pos) info
        else (some pos, { r.2 with
          blk := Function.update r.2.blk pos { r.2.blk pos with info := info }
          data := add32 r.2.data delta })
      let ptr := (s.2.blk (s.1.getD 0)).addr
      (s.1, { s.2 with
        area := writeAt (writeAt s.2.area ptr (name.map istLc)) (ptr + name.length) value })

/-! ### The room for a payload -/

variable {htx htx' : HtxBuf} {h n p q a k : ℕ}

theorem Shape.apart_room (hs : htx.Shape h n) (hlow : h ≤ q) (hhigh : q < n)
    (hlive : (htx.blk q).Live)
    (hroom : htx.tailAddr ≤ a ∨ htx.headAddr ≤ a ∧ a + k ≤ htx.endAddr) :
    CellsApart (htx.blk q).addr (htx.blk q).getBlksz a k := by
  have hin := hs.inside q hlow hhigh hlive
  have hle := hs.room
  have hsep := hs.sep
  rw [CellsApart]
  omega

theorem Shape.apart_last (hs : htx.Shape h n) (hplow : h ≤ p) (hphigh : p < n)
    (hused : (htx.blk p).used = true)
    (hedge : (htx.blk p).addr + (htx.blk p).getBlksz = htx.tailAddr) (hlow : h ≤ q) (hhigh : q < n)
    (hne : q ≠ p) (hlive : (htx.blk q).Live) :
    CellsApart (htx.blk q).addr (htx.blk q).getBlksz (htx.blk p).addr k := by
  rcases Nat.eq_zero_or_pos (htx.blk p).getBlksz with hzero | hpos
  · exact hs.apart_room hlow hhigh hlive (.inl (by omega))
  have hin := hs.inside q hlow hhigh hlive
  have hroom := hs.room
  have hsep := hs.sep
  have hpin := hs.inside p hplow hphigh ⟨hused, hpos⟩
  have hqpos := hlive.2
  left
  rcases hs.apart q p hlow hhigh hplow hphigh hne hlive ⟨hused, hpos⟩ with hbefore | hafter
  · exact hbefore
  · omega

theorem Shape.apart_edge (hs : htx.Shape h n) (hplow : h ≤ p) (hphigh : p < n)
    (hused : (htx.blk p).used = true)
    (hedge : (htx.blk p).addr + (htx.blk p).getBlksz = htx.headAddr)
    (hk : (htx.blk p).addr + k ≤ htx.endAddr) (hlow : h ≤ q) (hhigh : q < n) (hne : q ≠ p)
    (hlive : (htx.blk q).Live) :
    CellsApart (htx.blk q).addr (htx.blk q).getBlksz (htx.blk p).addr k := by
  rcases Nat.eq_zero_or_pos (htx.blk p).getBlksz with hzero | hpos
  · exact hs.apart_room hlow hhigh hlive (.inr (by omega))
  have hqpos := hlive.2
  rcases hs.inside q hlow hhigh hlive with hin | ⟨hin, -⟩
  · left
    rcases hs.apart q p hlow hhigh hplow hphigh hne hlive ⟨hused, hpos⟩ with hbefore | hafter
    · exact hbefore
    · omega
  · exact .inr (by omega)

/-- `htx'` is `htx` with the payload of the block `p` to be written at `a`, in a place of `k`
bytes. -/
structure Expanded (htx htx' : HtxBuf) (h n p a k : ℕ) : Prop where
  head : htx'.head = htx.head
  tail : htx'.tail = htx.tail
  area : htx'.area = htx.area
  blk : htx'.blk = Function.update htx.blk p { htx.blk p with addr := a }
  apart : ∀ q, h ≤ q → q < n → q ≠ p → (htx.blk q).Live → 0 < k →
    CellsApart (htx.blk q).addr (htx.blk q).getBlksz a k

def Refused (htx : HtxBuf) (delta : ℤ) : Prop := 0 < delta ∧ (htx.freeSpace : ℤ) < delta

/-- `r` is what `htx_prepare_blk_expansion` may do for a payload of `sz` bytes. -/
inductive Prepares (htx : HtxBuf) (h n p sz : ℕ) (r : ℕ × HtxBuf) : Prop
  | inPlace (ret : r.1 = 1) (room : Expanded htx r.2 h n p (htx.blk p).addr
      (max (htx.blk p).getBlksz sz))
  | moved (a : ℕ) (ret : r.1 = 2) (room : Expanded htx r.2 h n p a sz)
      (grows : (htx.blk p).getBlksz < sz)
      (fresh : 0 < (htx.blk p).getBlksz →
        CellsApart (htx.blk p).addr (htx.blk p).getBlksz a sz)
  | defrag (ret : r.1 = 3) (same : r.2 = htx) (grows : (htx.blk p).getBlksz < sz)

theorem update_addr_self (htx : HtxBuf) (p : ℕ) :
    htx.blk = Function.update htx.blk p { htx.blk p with addr := (htx.blk p).addr } :=
  (Function.update_eq_self p htx.blk).symm

theorem prepareBlkExpansion_refused {delta : ℤ} (href : htx.Refused delta) :
    prepareBlkExpansion htx p delta = (0, htx) := by
  rw [prepareBlkExpansion]
  dsimp only
  rw [if_neg (by have := href.1; omega), if_pos (by have := href.2; omega)]

theorem Shape.moved {sz : ℕ} (hs : htx.Shape h n) (hlow : h ≤ p) (hhigh : p < n)
    (hused : (htx.blk p).used = true)
    (hroom : htx.tailAddr ≤ a ∨ htx.headAddr ≤ a ∧ a + sz ≤ htx.endAddr)
    (hgrows : (htx.blk p).getBlksz < sz) (hhead : htx'.head = htx.head)
    (htail : htx'.tail = htx.tail) (harea : htx'.area = htx.area)
    (hblk : htx'.blk = Function.update htx.blk p { htx.blk p with addr := a }) :
    Prepares htx h n p sz (2, htx') := by
  refine .moved a rfl ⟨hhead, htail, harea, hblk, fun q hql hqh _ hq _ => ?_⟩ hgrows fun hpos => ?_
  · exact hs.apart_room hql hqh hq hroom
  · exact hs.apart_room hlow hhigh ⟨hused, hpos⟩ hroom

/-- **`htx_prepare_blk_expansion`** finds a place for the payload, if it is not refused. -/
theorem Shape.prepareBlkExpansion (hs : htx.Shape h n) (hlow : h ≤ p) (hhigh : p < n)
    (hused : (htx.blk p).used = true) {sz : ℕ} {delta : ℤ}
    (hdelta : delta = sz - (htx.blk p).getBlksz) (hroom : ¬htx.Refused delta) :
    Prepares htx h n p sz (prepareBlkExpansion htx p delta) := by
  have hsize := hs.size
  have hbelow := hs.below
  have hle := hs.room
  have hsep := hs.sep
  have hhead : sub32 htx.endAddr htx.headAddr = htx.endAddr - htx.headAddr :=
    sub32_eq hle (by omega)
  have htail : sub32 (sub32 htx.size (htx.tailSucc * 8)) htx.tailAddr
      = htx.size - 8 * n - htx.tailAddr := by
    have htable : sub32 htx.size (htx.tailSucc * 8) = htx.size - 8 * n := by
      rw [hs.tailSucc, Nat.mul_comm, sub32_eq (by omega) (by omega)]
    rw [htable, sub32_eq (by omega) (by omega)]
  have hinc : ¬delta ≤ 0 → (htx.blk p).getBlksz + delta.toNat = sz := fun hpos => by omega
  have hlive : 0 < (htx.blk p).getBlksz → (htx.blk p).Live := fun hpos => ⟨hused, hpos⟩
  rw [HtxBuf.prepareBlkExpansion, hhead, htail]
  dsimp only
  by_cases hneg : delta ≤ 0
  · rw [if_pos hneg]
    refine .inPlace rfl ⟨rfl, rfl, rfl, update_addr_self htx p, fun q hql hqh hne hq hk => ?_⟩
    have hmax : max (htx.blk p).getBlksz sz = (htx.blk p).getBlksz := Nat.max_eq_left (by omega)
    rw [hmax] at hk ⊢
    exact hs.apart q p hql hqh hlow hhigh hne hq (hlive hk)
  rw [if_neg hneg]
  have hsz := hinc hneg
  have hmax : max (htx.blk p).getBlksz sz = sz := Nat.max_eq_right (by omega)
  have hgrows : (htx.blk p).getBlksz < sz := by omega
  rw [if_neg (fun hfull => hroom ⟨by omega, by omega⟩), hsz]
  -- the payload is next to the tail room, next to the head room, or between others
  by_cases hlast : (htx.blk p).addr + (htx.blk p).getBlksz = htx.tailAddr
  · rw [if_pos hlast]
    by_cases hfits : delta.toNat < htx.size - 8 * n - htx.tailAddr
    · rw [if_pos hfits]
      refine .inPlace rfl ⟨rfl, rfl, rfl, update_addr_self htx p, fun q hql hqh hne hq _ => ?_⟩
      exact hs.apart_last hlow hhigh hused hlast hql hqh hne hq
    rw [if_neg hfits]
    by_cases hfits' : sz < htx.endAddr - htx.headAddr
    · rw [if_pos hfits']
      exact hs.moved hlow hhigh hused (.inr ⟨Nat.le_refl _, by omega⟩) hgrows rfl rfl rfl rfl
    · rw [if_neg hfits']
      exact .defrag rfl rfl hgrows
  rw [if_neg hlast]
  by_cases hedge : (htx.blk p).addr + (htx.blk p).getBlksz = htx.headAddr
  · rw [if_pos hedge]
    by_cases hfits : delta.toNat < htx.endAddr - htx.headAddr
    · rw [if_pos hfits]
      refine .inPlace rfl ⟨rfl, rfl, rfl, update_addr_self htx p, fun q hql hqh hne hq _ => ?_⟩
      exact hs.apart_edge hlow hhigh hused hedge (by omega) hql hqh hne hq
    · rw [if_neg hfits]
      exact .defrag rfl rfl hgrows
  rw [if_neg hedge]
  by_cases hfits : htx.headAddr = 0 ∧ sz < htx.size - 8 * n - htx.tailAddr
  · rw [if_pos hfits]
    exact hs.moved hlow hhigh hused (.inl (Nat.le_refl _)) hgrows rfl rfl rfl rfl
  rw [if_neg hfits]
  by_cases hfits' : sz < htx.endAddr - htx.headAddr
  · rw [if_pos hfits']
    exact hs.moved hlow hhigh hused (.inr ⟨Nat.le_refl _, by omega⟩) hgrows rfl rfl rfl rfl
  · rw [if_neg hfits']
    exact .defrag rfl rfl hgrows

end HtxBuf

end SmartHAProxy
