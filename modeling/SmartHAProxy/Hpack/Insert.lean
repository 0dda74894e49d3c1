/-
The dynamic table refines the table of RFC 7541.

An insertion first finds a slot for the descriptor (`placeIndex_spec`), then an
address for the contents (`placeContents_spec`), and copies them there
(`insertCopy_spec`).  Both may defragment the table, which is always enough: the
32 bytes of each entry pay for its descriptor of 8 bytes, and those of the new
entry for the header of the table.
-/
import SmartHAProxy.Hpack.Room

namespace SmartHAProxy

variable {addr len f' : ℕ}

variable {dht : HpackDht} {p : List HpackEntry} {f : ℕ} {e : HpackEntry}

/-! ### The slot -/

/-- A slot has been found for one more entry of `len` bytes. -/
structure Slotted (pl : Placing) (size : ℕ) (p : List HpackEntry) (f : ℕ) : Prop where
  layout : Layout pl.dht p f
  size : pl.dht.size = size
  prev : pl.prev = pl.dht.head
  tail : pl.tail = slotAt pl.dht.wrap pl.dht.head (p.length - 1)
  next : NextIndex pl.dht.wrap pl.dht.head pl.wrap pl.head p.length
  floor : 16 + 8 * pl.wrap ≤ (pl.dht.dte pl.dht.front).addr

theorem Layout.front_floor (h : Layout dht p f) (hp : p ≠ []) :
    16 + 8 * dht.wrap ≤ (dht.dte dht.front).addr := by
  rw [h.front hp]
  exact (h.contents.holds_lt (h.front_lt hp)).floor

theorem Layout.tail_eq (h : Layout dht p f) (hp : p ≠ []) (hsize : dht.size ≤ hpackMaxSize) :
    hpackDhtGetTail dht = slotAt dht.wrap dht.head (p.length - 1) := by
  have hwrap := h.wrap_lt hp
  have hmax : dht.size ≤ 524303 := hsize
  rw [hpackDhtGetTail, h.used]
  exact tailSlot_eq (List.length_pos_of_ne_nil hp) (h.head_lt hp) (h.le_wrap hp) (by omega)

theorem realignIndex_spec (h : Layout dht p f) (hp : p ≠ []) (hsize : dht.size ≤ hpackMaxSize)
    (hroom : rfcSize p + 32 ≤ dht.size) :
    ∃ pl, realignIndex dht = .ok pl ∧ Slotted pl dht.size p 0 := by
  obtain ⟨dht', hrun, hlayout, hsize', hwrap, hhead, haddr⟩ := hpackDhtDefrag_spec h hp hsize
  have htotal := h.total
  refine ⟨⟨dht', dht'.head + 1, dht'.head, dht'.wrap + 1, 0⟩, ?_, hlayout, hsize', rfl, ?_, ?_, ?_⟩
  · rw [realignIndex, hrun]
    rfl
  · show 0 = slotAt dht'.wrap dht'.head (p.length - 1)
    rw [slotAt_of_le (by omega)]
    omega
  · exact (hlayout.index hp).next_push (by omega)
  · show 16 + 8 * (dht'.wrap + 1) ≤ (dht'.dte dht'.front).addr
    rw [hlayout.front hp]
    have hfirst := haddr 0 (List.length_pos_of_ne_nil hp)
    omega

theorem placeIndex_spec (h : Layout dht p f) (hp : p ≠ []) (hsize : dht.size ≤ hpackMaxSize)
    (hroom : rfcSize p + 32 ≤ dht.size) :
    ∃ pl f', placeIndex dht = .ok pl ∧ Slotted pl dht.size p f' := by
  have hindex := h.index hp
  have htail := h.tail_eq hp hsize
  have hused := h.used
  have hpos := List.length_pos_of_ne_nil hp
  have hrealign : ∃ pl f', realignIndex dht = .ok pl ∧ Slotted pl dht.size p f' := by
    obtain ⟨pl, hrun, hslot⟩ := realignIndex_spec h hp hsize hroom
    exact ⟨pl, 0, hrun, hslot⟩
  simp only [placeIndex]
  split_ifs with hlead hpush hhole hhit
  · refine ⟨_, f, rfl, h, rfl, rfl, htail, hindex.next_push hlead, ?_⟩
    show 16 + 8 * (dht.wrap + 1) ≤ (dht.dte dht.front).addr
    omega
  · exact ⟨_, f, rfl, h, rfl, rfl, htail, hindex.next_loop hlead hpos (by omega), h.front_floor hp⟩
  · exact hrealign
  · exact hrealign
  · exact ⟨_, f, rfl, h, rfl, rfl, htail, hindex.next_follow (by omega) (by omega), h.front_floor hp⟩

/-! ### The address -/

/-- Contents of `len` bytes at `addr` are below all entries, or between the groups. -/
def Apart (addr len : ℕ) (p : List HpackEntry) (f f' : ℕ) (desc : ℕ → HpackDte) : Prop :=
  f' = 0 ∧ f = 0 ∧ (∀ j < p.length, addr + len ≤ (desc j).addr) ∨
  f' = f + 1 ∧ (∀ j < f, addr + len ≤ (desc j).addr) ∧
    ∀ j, f ≤ j → j < p.length → (desc j).stop ≤ addr

theorem Apart.disjoint {j : ℕ} {desc : ℕ → HpackDte} (h : Apart addr len p f f' desc)
    (hj : j < p.length) : addr + len ≤ (desc j).addr ∨ (desc j).stop ≤ addr := by
  rcases h with ⟨-, -, h₃⟩ | ⟨-, h₂, h₃⟩
  · exact .inl (h₃ j hj)
  · rcases Nat.lt_or_ge j f with hlt | hge
    · exact .inl (h₂ j hlt)
    · exact .inr (h₃ j hge hj)

theorem Apart.congr {desc desc' : ℕ → HpackDte} (h : Apart addr len p f f' desc) (hf : f ≤ p.length)
    (heq : ∀ j < p.length, desc' j = desc j) : Apart addr len p f f' desc' := by
  rcases h with ⟨h₁, h₂, h₃⟩ | ⟨h₁, h₂, h₃⟩
  · refine .inl ⟨h₁, h₂, fun j hj => ?_⟩
    rw [heq j hj]
    exact h₃ j hj
  · refine .inr ⟨h₁, fun j hj => ?_, fun j hf hj => ?_⟩
    · rw [heq j (by omega)]
      exact h₂ j hj
    · rw [heq j hj]
      exact h₃ j hf hj

/-- The new head has a slot and an address, and the entries `p` are as before. -/
structure Placed (dht : HpackDht) (p : List HpackEntry) (e : HpackEntry) (f' : ℕ) : Prop where
  area : dht.area.length = dht.size
  total : dht.total + 32 * p.length = rfcSize p
  fits : rfcSize (e :: p) ≤ dht.size
  used : dht.used = p.length + 1
  index : Index dht.wrap dht.head (p.length + 1)
  front_lt : f' < p.length + 1
  front : dht.front = slotAt dht.wrap dht.head f'
  floor : 16 + 8 * dht.wrap ≤ (dht.dte dht.head).addr
  stop : (dht.dte dht.head).addr + entryLen e ≤ dht.size
  contents : ∃ f, Contents (16 + 8 * dht.wrap) dht.size dht.area p f
      (fun j => dht.dte (slotAt dht.wrap dht.head (j + 1))) ∧
    Apart (dht.dte dht.head).addr (entryLen e) p f f'
      fun j => dht.dte (slotAt dht.wrap dht.head (j + 1))

/-- Descriptors with the address of one changed. -/
def setAddr (dte : ℕ → HpackDte) (head addr : ℕ) : ℕ → HpackDte :=
  Function.update dte head { dte head with addr := addr }

@[simp] theorem setAddr_self (dte : ℕ → HpackDte) (head addr : ℕ) :
    (setAddr dte head addr head).addr = addr := by rw [setAddr, Function.update_self]

theorem setAddr_of_ne (dte : ℕ → HpackDte) (addr : ℕ) {head slot : ℕ} (h : slot ≠ head) :
    setAddr dte head addr slot = dte slot := Function.update_of_ne h ..

theorem Layout.placed {wrap head front : ℕ} (h : Layout dht p f) (hp : p ≠ [])
    (hnext : NextIndex dht.wrap dht.head wrap head p.length) (hfits : rfcSize (e :: p) ≤ dht.size)
    (hlow : 16 + 8 * wrap ≤ (dht.dte dht.front).addr) (hf' : f' < p.length + 1)
    (hfront : front = slotAt wrap head f') (hfloor : 16 + 8 * wrap ≤ addr)
    (hstop : addr + entryLen e ≤ dht.size)
    (hapart : Apart addr (entryLen e) p f f' fun j => dht.dte (slotAt dht.wrap dht.head j)) :
    Placed { dht with
      wrap := wrap, head := head, used := p.length + 1, front := front
      dte := setAddr dht.dte head addr } p e f' := by
  have hdesc : ∀ j < p.length,
      setAddr dht.dte head addr (slotAt wrap head (j + 1)) = dht.dte (slotAt dht.wrap dht.head j) := by
    intro j hj
    rw [hnext.slot j hj, setAddr_of_ne _ _ (hnext.fresh j hj)]
  refine ⟨h.area, h.total, hfits, rfl, hnext.index, hf', hfront, ?_, ?_, f, ?_, ?_⟩
  · show 16 + 8 * wrap ≤ (setAddr dht.dte head addr head).addr
    rw [setAddr_self]
    exact hfloor
  · show (setAddr dht.dte head addr head).addr + _ ≤ dht.size
    rw [setAddr_self]
    exact hstop
  · rw [h.front hp] at hlow
    exact (h.contents.lower (h.front_lt hp) hlow).congr hdesc
  · show Apart (setAddr dht.dte head addr head).addr _ _ _ _ fun j =>
      setAddr dht.dte head addr (slotAt wrap head (j + 1))
    rw [setAddr_self]
    exact hapart.congr (Nat.le_of_lt (h.front_lt hp)) hdesc

theorem Layout.apart_front (h : Layout dht p 0) (hp : p ≠ [])
    (hlen : len ≤ (dht.dte dht.front).addr) :
    Apart ((dht.dte dht.front).addr - len) len p 0 0 fun j => dht.dte (slotAt dht.wrap dht.head j) := by
  refine .inl ⟨rfl, rfl, fun j hj => ?_⟩
  have hle := h.contents.head_le_addr (.inl rfl) hj
  rw [h.front hp] at hlen ⊢
  dsimp only at hle ⊢
  omega

theorem Layout.apart_tail (h : Layout dht p f)
    (htail : (dht.dte (slotAt dht.wrap dht.head (p.length - 1))).stop ≤ addr)
    (hbelow : f = 0 ∨ addr + len = (dht.dte (slotAt dht.wrap dht.head 0)).addr) (hp : p ≠ []) :
    Apart addr len p f (f + 1) fun j => dht.dte (slotAt dht.wrap dht.head j) := by
  refine .inr ⟨rfl, fun j hj => ?_, fun j hf hj => ?_⟩
  · rcases hbelow with rfl | hbelow
    · cases hj
    · rw [hbelow]
      exact h.contents.head_le_addr (.inr hj) (Nat.lt_trans hj (h.front_lt hp))
  · exact Nat.le_trans (h.contents.stop_le_tail hf hj) htail

theorem Layout.head_eq_front (h : Layout dht p f) (hp : p ≠ []) : dht.head = dht.front ↔ f = 0 := by
  have hzero : dht.head = slotAt dht.wrap dht.head 0 := by
    rw [slotAt_of_le (Nat.zero_le _), Nat.sub_zero]
  rw [h.front hp]
  constructor
  · intro heq
    exact (h.index hp).slot_inj (h.front_lt hp) (List.length_pos_of_ne_nil hp) (heq.symm.trans hzero)
  · rintro rfl
    exact hzero

theorem Layout.tailroom (h : Layout dht p f) (hp : p ≠ []) (hsize : dht.size ≤ hpackMaxSize) :
    let stop := (dht.dte (slotAt dht.wrap dht.head (p.length - 1))).stop
    stop + (if dht.head = dht.front then u32 (dht.size - stop) else u32 ((dht.dte dht.head).addr - stop))
      = if f = 0 then dht.size else (dht.dte (slotAt dht.wrap dht.head 0)).addr := by
  intro stop
  have hpos := List.length_pos_of_ne_nil hp
  have hlast : p.length - 1 < p.length := Nat.sub_lt hpos Nat.one_pos
  have hmax : dht.size ≤ 524303 := hsize
  have htail : stop ≤ dht.size := (h.contents.holds_lt hlast).size
  have hhead := (h.contents.holds_lt hpos).size
  rw [(h.contents.holds_lt hpos).stop_eq] at hhead
  by_cases hf : f = 0
  · rw [if_pos ((h.head_eq_front hp).mpr hf), if_pos hf,
      u32_of_lt (n := dht.size - stop) (by omega) (by omega)]
    omega
  · have hcross : stop ≤ (dht.dte (slotAt dht.wrap dht.head 0)).addr :=
      h.contents.across 0 (p.length - 1) (by omega) (by have := h.front_lt hp; omega) hlast
    have hzero : slotAt dht.wrap dht.head 0 = dht.head := by
      rw [slotAt_of_le (Nat.zero_le _), Nat.sub_zero]
    rw [hzero] at hcross hhead ⊢
    rw [if_neg (fun heq => hf ((h.head_eq_front hp).mp heq)), if_neg hf,
      u32_of_lt (n := (dht.dte dht.head).addr - stop) (by omega) (by omega)]
    omega

theorem Layout.floor_le_stop {floor : ℕ} (h : Layout dht p f) (hp : p ≠ [])
    (hfloor : floor ≤ (dht.dte dht.front).addr) :
    floor ≤ (dht.dte (slotAt dht.wrap dht.head (p.length - 1))).stop := by
  rw [h.front hp] at hfloor
  have hlast : p.length - 1 < p.length := Nat.sub_lt (List.length_pos_of_ne_nil hp) Nat.one_pos
  have hcell := (h.contents.lower (h.front_lt hp) hfloor).holds_lt hlast
  rw [hcell.stop_eq]
  exact Nat.le_trans hcell.floor (Nat.le_add_right _ _)

/-- **The address** is apart from all entries, wherever it is taken. -/
theorem placeContents_spec {pl : Placing} {size : ℕ} (h : Slotted pl size p f) (hp : p ≠ [])
    (hsize : size ≤ hpackMaxSize) (hfits : rfcSize (e :: p) ≤ size) :
    ∃ dht' f', placeContents pl (entryLen e) = .ok dht' ∧ Placed dht' p e f' ∧ dht'.size = size := by
  obtain ⟨dht, head, prev, wrap, tail⟩ := pl
  obtain ⟨hl, hs, hprev, htail, hnext, hfloor⟩ := h
  dsimp only at hl hs hprev htail hnext hfloor
  subst hs hprev htail
  have hflt := hl.front_lt hp
  have hmax : dht.size ≤ 524303 := hsize
  have hfrontcell : (dht.dte dht.front).addr ≤ dht.size := by
    have hcell := hl.contents.holds_lt hflt
    have hstop := hcell.size
    rw [hcell.stop_eq] at hstop
    rw [hl.front hp]
    exact Nat.le_trans (Nat.le_add_right _ _) hstop
  have hlt := hnext.index.head_lt
  have hw : u16 wrap = wrap := u16_of_lt rfl (by omega)
  have hh : u16 head = head := u16_of_lt rfl (by omega)
  have hused : u16 (dht.used + 1) = p.length + 1 := by
    have hlen := hl.length_lt
    rw [hl.used]
    exact u16_of_lt (by omega) (by omega)
  have hroom := hl.tailroom hp hsize
  have hlow := hl.floor_le_stop hp hfloor
  dsimp only at hroom
  have hcost : rfcSize (e :: p) = entryLen e + 32 + rfcSize p := rfl
  have hheadroom (heq : dht.head = dht.front) :
      (if dht.head = dht.front then u32 ((dht.dte dht.front).addr - (16 + wrap * 8)) else 0)
        = (dht.dte dht.front).addr - (16 + 8 * wrap) := by
    rw [if_pos heq]
    exact u32_of_lt (by omega) (by omega)
  simp only [placeContents, hw, hh, hused]
  generalize (if dht.head = dht.front then _ else 0 : ℕ) = headroom at hheadroom ⊢
  generalize (if dht.head = dht.front then _ else _ : ℕ) = room at hroom ⊢
  split_ifs with hfront htail
  · -- before the front cell
    obtain rfl := (hl.head_eq_front hp).mp hfront.1
    have hlen := hfront.2
    rw [hheadroom hfront.1] at hlen
    have haddr : u32 ((dht.dte dht.front).addr - entryLen e) = (dht.dte dht.front).addr - entryLen e :=
      u32_of_lt (by omega) (by omega)
    rw [haddr]
    refine ⟨_, 0, rfl, hl.placed hp hnext hfits hfloor (Nat.succ_pos _) ?_ (by omega) (by omega)
      (hl.apart_front hp (by omega)), rfl⟩
    rw [slotAt_of_le (Nat.zero_le _), Nat.sub_zero]
  · -- behind the tail
    have hup : (if f = 0 then dht.size else (dht.dte (slotAt dht.wrap dht.head 0)).addr) ≤ dht.size := by
      split_ifs
      · exact Nat.le_refl _
      · have hcell := hl.contents.holds_lt (List.length_pos_of_ne_nil hp)
        have hstop := hcell.size
        rw [hcell.stop_eq] at hstop
        exact Nat.le_trans (Nat.le_add_right _ _) hstop
    have haddr : u32 ((dht.dte (slotAt dht.wrap dht.head (p.length - 1))).stop + room - entryLen e)
        = (dht.dte (slotAt dht.wrap dht.head (p.length - 1))).stop + (room - entryLen e) :=
      u32_of_lt (by omega) (by omega)
    rw [haddr]
    refine ⟨_, f + 1, rfl, hl.placed hp hnext hfits hfloor (by omega) ?_ (by omega) (by omega)
      (hl.apart_tail (Nat.le_add_right _ _) ?_ hp), rfl⟩
    · rw [hnext.slot f hflt]
      exact hl.front hp
    · by_cases hf : f = 0
      · exact .inl hf
      · right
        rw [if_neg hf] at hroom
        omega
  · -- before the front cell, once the table is packed
    obtain ⟨dht', hrun, hl', hsize', hwrap', hhead', haddr'⟩ := hpackDhtDefrag_spec hl hp hsize
    have hpos := List.length_pos_of_ne_nil hp
    have htotal := hl.total
    have hfirst := haddr' 0 hpos
    rw [← hl'.front hp] at hfirst
    have hfrontcell' : (dht'.dte dht'.front).addr ≤ dht.size := by
      have hcell := hl'.contents.holds_lt hpos
      have hstop := hcell.size
      rw [hcell.stop_eq, hsize'] at hstop
      rw [hl'.front hp]
      exact Nat.le_trans (Nat.le_add_right _ _) hstop
    have hlen := hl.length_lt
    have haddr : u32 ((dht'.dte dht'.front).addr - entryLen e) = (dht'.dte dht'.front).addr - entryLen e :=
      u32_of_lt (by omega) (by omega)
    have hw' : u16 (dht'.wrap + 1 : ℕ) = dht'.wrap + 1 := u16_of_lt rfl (by omega)
    have hh' : u16 (dht'.head + 1 : ℕ) = dht'.head + 1 := u16_of_lt rfl (by omega)
    rw [hrun]
    refine ⟨_, 0, rfl, ?_, hsize'⟩
    rw [haddr, hw', hh']
    refine hl'.placed hp ((hl'.index hp).next_push (by omega)) (by omega) (by omega) (Nat.succ_pos _)
      ?_ (by omega) (by omega) (hl'.apart_front hp (by omega))
    rw [slotAt_of_le (Nat.zero_le _), Nat.sub_zero]

/-! ### The copy -/

/-- **The copy** makes the new head an entry. -/
theorem insertCopy_spec (h : Placed dht p e f') (hsize : dht.size ≤ hpackMaxSize)
    (hname : e.1.length < 2 ^ 16) (hvalue : e.2.length < 2 ^ 16) :
    ∃ dht', insertCopy dht e.1 e.2 = .ok dht' ∧ Layout dht' (e :: p) f' ∧ dht'.size = dht.size := by
  obtain ⟨f, hcontents, hapart⟩ := h.contents
  have hstop := h.stop
  have harea := h.area
  have hlen : e.1.length + e.2.length = entryLen e := rfl
  have hmax : dht.size ≤ 524303 := hsize
  have hcost : rfcSize (e :: p) = entryLen e + 32 + rfcSize p := rfl
  have htotal := h.total
  have hfits := h.fits
  set addr := (dht.dte dht.head).addr with haddr
  have hwrite₁ : e.1 = [] ∨ addr + e.1.length ≤ dht.area.length := .inr (by omega)
  have hlen₁ := length_overwrite hwrite₁
  have hwrite₂ : e.2 = [] ∨ addr + e.1.length + e.2.length ≤ (overwrite dht.area addr e.1).length :=
    .inr (by omega)
  have hlen₂ := length_overwrite hwrite₂
  set area := overwrite (overwrite dht.area addr e.1) (addr + e.1.length) e.2 with hareadef
  -- what the two writes leave
  have hbytes (x : ℕ) : area[x]?
      = if addr ≤ x ∧ x < addr + entryLen e then (e.1 ++ e.2)[x - addr]? else dht.area[x]? := by
    rw [hareadef, getElem?_overwrite hwrite₂, getElem?_overwrite hwrite₁, List.getElem?_append]
    split_ifs <;> first | omega | rfl | (congr 1; omega)
  have hn : u16 e.1.length = e.1.length := u16_of_lt rfl hname
  have hv : u16 e.2.length = e.2.length := u16_of_lt rfl hvalue
  have ht : u32 (dht.total + (e.1.length + e.2.length)) = dht.total + entryLen e :=
    u32_of_lt (by omega) (by omega)
  have hnew : Holds (16 + 8 * dht.wrap) dht.size area ⟨addr, e.1.length, e.2.length⟩ e := by
    refine ⟨rfl, rfl, h.floor, ?_, fun x hx => ?_⟩
    · show addr + e.1.length + e.2.length ≤ dht.size
      omega
    · show area[addr + x]? = _
      rw [hbytes, if_pos (by omega), Nat.add_sub_cancel_left]
  have hkept : Contents (16 + 8 * dht.wrap) dht.size area p f
      fun j => dht.dte (slotAt dht.wrap dht.head (j + 1)) := by
    refine hcontents.frame fun j hj x hx hx' => ?_
    rw [hbytes, if_neg]
    have hj' : addr + entryLen e ≤ (dht.dte (slotAt dht.wrap dht.head (j + 1))).addr ∨
        (dht.dte (slotAt dht.wrap dht.head (j + 1))).stop ≤ addr := hapart.disjoint hj
    omega
  have hpush : Contents (16 + 8 * dht.wrap) dht.size area (e :: p) f'
      (pushDesc ⟨addr, e.1.length, e.2.length⟩
        fun j => dht.dte (slotAt dht.wrap dht.head (j + 1))) := by
    have hnewstop : (⟨addr, e.1.length, e.2.length⟩ : HpackDte).stop = addr + entryLen e :=
      hnew.stop_eq
    rcases hapart with ⟨rfl, rfl, h₃⟩ | ⟨rfl, h₂, h₃⟩
    · refine hkept.push_front hnew fun j hj => ?_
      rw [hnewstop]
      exact h₃ j hj
    · refine hkept.push_behind hnew (fun j hj => ?_) h₃
      rw [hnewstop]
      exact h₂ j hj
  have hrun : insertCopy dht e.1 e.2 = .ok { dht with
      total := dht.total + entryLen e
      dte := Function.update dht.dte dht.head ⟨addr, e.1.length, e.2.length⟩
      area := area } := by
    simp only [insertCopy]
    rw [← haddr, memWrite_eq hwrite₁]
    show Except.bind (memWrite (overwrite dht.area addr e.1) _ _) _ = _
    rw [memWrite_eq hwrite₂, hn, hv, ht]
    rfl
  refine ⟨_, hrun, ⟨⟨?_, ?_, h.fits, fun _ => h.index.head_lt, fun _ => h.index.le_wrap,
    fun _ => h.front_lt, fun _ => h.front, ?_⟩, h.used, fun _ => h.index.packed⟩, rfl⟩
  · exact (hlen₂.trans hlen₁).trans harea
  · show dht.total + entryLen e + 32 * (e :: p).length = _
    rw [List.length_cons]
    omega
  · refine hpush.congr fun j hj => ?_
    show Function.update dht.dte dht.head _ (slotAt dht.wrap dht.head j) = _
    rcases j with - | j
    · rw [slotAt_of_le (Nat.zero_le _), Nat.sub_zero, Function.update_self]
      rfl
    · rw [Function.update_of_ne]
      · rfl
      · intro heq
        have hzero : slotAt dht.wrap dht.head 0 = dht.head := by
          rw [slotAt_of_le (Nat.zero_le _), Nat.sub_zero]
        rw [List.length_cons] at hj
        have := h.index.slot_inj (i := j + 1) (j := 0) (by omega) (by omega) (heq.trans hzero.symm)
        omega

end SmartHAProxy
