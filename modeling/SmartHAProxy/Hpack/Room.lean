/-
Making room in the dynamic table: eviction and defragmentation.

Eviction keeps what RFC 7541 keeps (`hpackDhtMakeRoom_spec`).  Defragmentation
keeps all entries and leaves one group, at the end of the area and with the
smallest index (`hpackDhtDefrag_spec`).
-/
import SmartHAProxy.Hpack.Layout
import SmartHAProxy.Lib.Run

namespace SmartHAProxy

variable {dht : HpackDht} {p : List HpackEntry} {f : ℕ}

theorem u32_of_lt {x : ℤ} {n : ℕ} (hx : x = n) (hn : n < 2 ^ 32) : u32 x = n := by
  rw [u32]
  omega

theorem u16_of_lt {x : ℤ} {n : ℕ} (hx : x = n) (hn : n < 2 ^ 16) : u16 x = n := by
  rw [u16]
  omega

/-- The largest table whose index fits 16 bits. -/
def hpackMaxSize : ℕ := 524303

theorem tailSlot_eq {k : ℕ} (hk : 0 < k) (hhead : dht.head < dht.wrap) (hle : k ≤ dht.wrap)
    (hwrap : dht.wrap < 2 ^ 31) : tailSlot dht k = slotAt dht.wrap dht.head (k - 1) := by
  rw [tailSlot, slotAt]
  split_ifs <;> exact u32_of_lt (by omega) (by omega)

theorem Entries.wrap_lt (h : Entries dht p f) (hp : p ≠ []) : 16 + 8 * dht.wrap ≤ dht.size := by
  have hpos : 0 < p.length := List.length_pos_of_ne_nil hp
  have hold := h.contents.holds_lt hpos
  have hfloor := hold.floor
  have hstop := hold.size
  rw [hold.stop_eq] at hstop
  omega

theorem Entries.length_lt (h : Entries dht p f) : 32 * p.length ≤ dht.size :=
  Nat.le_trans (rfcSize_ge p) h.fits

/-! ### Eviction -/

/-- The table after one turn of the loop. -/
def evictTail (dht : HpackDht) (k : ℕ) : HpackDht :=
  { dht with
    total := u32 (dht.total - (dht.dte (tailSlot dht k)).nlen - (dht.dte (tailSlot dht k)).vlen)
    front := if tailSlot dht k = dht.front then dht.head else dht.front }

theorem makeRoomLoop_succ (needed k : ℕ) (dht : HpackDht) :
    makeRoomLoop needed (k + 1) dht
      = if k ≠ 0 ∧ u32 (k * 32 + (evictTail dht (k + 1)).total + needed + 32) > dht.size then
          makeRoomLoop needed k (evictTail dht (k + 1))
        else (k, evictTail dht (k + 1)) := rfl

/-- One turn evicts the oldest entry. -/
theorem Entries.evictTail {e : HpackEntry} (h : Entries dht (p ++ [e]) f)
    (hsize : dht.size ≤ hpackMaxSize) :
    Entries (evictTail dht (p.length + 1)) p (if f = p.length then 0 else f) := by
  have hne : p ++ [e] ≠ [] := by simp
  have hlen : (p ++ [e]).length = p.length + 1 := by simp
  have hhead := h.head_lt hne
  have hle := h.le_wrap hne
  have hwrap := h.wrap_lt hne
  have hflt := h.front_lt hne
  have hfront := h.front hne
  rw [hlen] at hle hflt
  rw [hpackMaxSize] at hsize
  have htail : tailSlot dht (p.length + 1) = slotAt dht.wrap dht.head p.length :=
    tailSlot_eq (Nat.succ_pos _) hhead hle (by omega)
  have hold := h.contents.holds p.length e (by simp)
  have htotal := h.total
  rw [rfcSize_append, rfcSize_cons, rfcSize_nil, rfcCost, entryLen, hlen] at htotal
  have hfits := h.fits
  rw [rfcSize_append] at hfits
  have hfits' : rfcSize p ≤ dht.size := by omega
  have hle' : p.length ≤ dht.wrap := by omega
  refine ⟨h.area, ?_, hfits', fun _ => hhead, fun _ => hle', fun hp => ?_, fun hp => ?_,
    h.contents.evict⟩
  · show u32 _ + 32 * p.length = rfcSize p
    have hge := rfcSize_ge p
    rw [htail, hold.nlen, hold.vlen, u32_of_lt (n := rfcSize p - 32 * p.length) (by omega) (by omega)]
    omega
  · have hpos := List.length_pos_of_ne_nil hp
    split_ifs <;> omega
  · show (if _ then _ else _) = _
    rw [htail, hfront]
    -- the slot of the oldest entry is the front cell if its number is
    have hindex {i j : ℕ} (hi : i < p.length + 1) (hj : j < p.length + 1)
        (heq : slotAt dht.wrap dht.head i = slotAt dht.wrap dht.head j) : i = j := by
      simp only [slotAt] at heq
      split_ifs at heq <;> omega
    by_cases hf : f = p.length
    · rw [if_pos (by rw [hf]), if_pos hf, slotAt, if_pos (Nat.zero_le _), Nat.sub_zero]
      rfl
    · rw [if_neg fun heq => hf (hindex (by omega) (by omega) heq.symm), if_neg hf]
      rfl

/-- What a turn of the loop leaves alone. -/
structure SameIndex (dht dht' : HpackDht) : Prop where
  size : dht'.size = dht.size
  wrap : dht'.wrap = dht.wrap
  head : dht'.head = dht.head

/-- The loop evicts what RFC 7541 evicts. -/
theorem Entries.makeRoomLoop {needed : ℕ} (hneeded : needed < 2 ^ 31) (p : List HpackEntry) :
    ∀ {dht : HpackDht} {f : ℕ}, Entries dht p f → p ≠ [] → dht.size ≤ hpackMaxSize →
      dht.size - (needed + 32) < rfcSize p →
      ∃ dht' f', makeRoomLoop needed p.length dht
          = ((rfcKeep (dht.size - (needed + 32)) p).length, dht') ∧
        Entries dht' (rfcKeep (dht.size - (needed + 32)) p) f' ∧ SameIndex dht dht' := by
  induction p using List.reverseRecOn with
  | nil =>
    intro dht f _ hne
    exact absurd rfl hne
  | append_singleton p e ih =>
    intro dht f h _ hsize hover
    have hnext := h.evictTail hsize
    have hlen : (p ++ [e]).length = p.length + 1 := by simp
    rw [hlen, makeRoomLoop_succ, rfcKeep_concat hover]
    have htotal := hnext.total
    have hge := rfcSize_ge p
    have hmax : dht.size ≤ 524303 := hsize
    have hfits : rfcSize p ≤ dht.size := hnext.fits
    have hsum : u32 (p.length * 32 + (SmartHAProxy.evictTail dht (p.length + 1)).total + needed + 32)
        = rfcSize p + needed + 32 := u32_of_lt (by omega) (by omega)
    rw [hsum]
    split_ifs with hmore
    · have hp : p ≠ [] := fun h0 => hmore.1 (by rw [h0]; rfl)
      have hover' : dht.size - (needed + 32) < rfcSize p := by omega
      obtain ⟨dht', f', hrun, hentries, hsame⟩ := ih hnext hp hsize hover'
      exact ⟨dht', f', hrun, hentries, hsame.size, hsame.wrap, hsame.head⟩
    · -- it fits, or there is no entry left
      have hkeep : rfcKeep (dht.size - (needed + 32)) p = p := by
        rcases eq_or_ne p [] with rfl | hp
        · rfl
        · have hpos := List.length_pos_of_ne_nil hp
          exact rfcKeep_of_fits (by omega)
      rw [hkeep]
      exact ⟨_, _, rfl, hnext, rfl, rfl, rfl⟩

theorem slotAt_of_le {wrap head j : ℕ} (h : j ≤ head) : slotAt wrap head j = head - j := if_pos h

/-- The end of `__hpack_dht_make_room`. -/
def packIndex (dht : HpackDht) (used : ℕ) : HpackDht :=
  let dht := { dht with used := used }
  let dht := if used = 0 then { dht with front := 0, head := 0 } else dht
  if dht.head + 1 ≥ used then { dht with wrap := u16 (dht.head + 1) } else dht

theorem hpackDhtMakeRoomLoop_eq {needed used : ℕ} {dht' : HpackDht}
    (h : makeRoomLoop needed dht.used dht = (used, dht')) :
    hpackDhtMakeRoomLoop dht needed
      = (decide (u32 (needed + 32) ≤ (packIndex dht' used).size), packIndex dht' used) := by
  rw [hpackDhtMakeRoomLoop, h]
  rfl

theorem packIndex_size (dht : HpackDht) (used : ℕ) : (packIndex dht used).size = dht.size := by
  simp only [packIndex]
  split_ifs <;> rfl

theorem Entries.pack (h : Entries dht p f) (hsize : dht.size ≤ hpackMaxSize) :
    Layout (packIndex dht p.length) p f := by
  rcases eq_or_ne p [] with rfl | hp
  · -- nothing is left
    have hinit : ∀ d : HpackDht, d.area.length = d.size → d.total = 0 → d.used = 0 →
        Layout d [] f := by
      intro d harea htotal hused
      have hnil {q : Prop} : ([] : List HpackEntry) ≠ [] → q := fun h => absurd rfl h
      exact ⟨⟨harea, by rw [htotal]; rfl, Nat.zero_le _, hnil, hnil, hnil, hnil, contents_nil ..⟩,
        hused, hnil⟩
    have htotal : dht.total = 0 := h.total
    exact hinit _ h.area htotal rfl
  have hpos := List.length_pos_of_ne_nil hp
  have hhead := h.head_lt hp
  have hwrap := h.wrap_lt hp
  rw [hpackMaxSize] at hsize
  simp only [packIndex, if_neg (Nat.ne_of_gt hpos)]
  split_ifs with hpack
  · have hw : u16 (dht.head + 1) = dht.head + 1 := u16_of_lt (by omega) (by omega)
    have hslot : ∀ j < p.length, slotAt (dht.head + 1) dht.head j = slotAt dht.wrap dht.head j := by
      intro j hj
      rw [slotAt_of_le (by omega), slotAt_of_le (by omega)]
    have hcontents : Contents (16 + 8 * (dht.head + 1)) dht.size dht.area p f
        fun j => dht.dte (slotAt (dht.head + 1) dht.head j) :=
      (h.contents.mono (by omega)).congr fun j hj => by rw [hslot j hj]
    rw [hw]
    refine ⟨⟨h.area, h.total, h.fits, fun _ => Nat.lt_succ_self _, fun _ => hpack, h.front_lt,
      fun _ => ?_, hcontents⟩, rfl, fun _ _ => rfl⟩
    show dht.front = slotAt (dht.head + 1) dht.head f
    rw [hslot f (h.front_lt hp)]
    exact h.front hp
  · exact ⟨⟨h.area, h.total, h.fits, h.head_lt, h.le_wrap, h.front_lt, h.front, h.contents⟩, rfl,
      fun _ hle => absurd hle hpack⟩

/-- **Eviction**: `hpack_dht_make_room` keeps what RFC 7541 keeps. -/
theorem hpackDhtMakeRoom_spec {needed : ℕ} (h : Layout dht p f) (hsize : dht.size ≤ hpackMaxSize)
    (hneeded : needed < 2 ^ 31) :
    ∃ dht' f', hpackDhtMakeRoom dht needed = (decide (needed + 32 ≤ dht.size), dht') ∧
      Layout dht' (rfcKeep (dht.size - (needed + 32)) p) f' ∧ dht'.size = dht.size := by
  have hmax : dht.size ≤ 524303 := hsize
  have htotal := h.total
  have hfits := h.fits
  have hused := h.used
  have hsum : u32 (dht.used * 32 + dht.total + needed + 32) = rfcSize p + needed + 32 :=
    u32_of_lt (by omega) (by omega)
  have hneed : u32 (needed + 32) = needed + 32 := u32_of_lt (by omega) (by omega)
  rw [hpackDhtMakeRoom, hsum]
  split_ifs with hroom hzero
  · rw [rfcKeep_of_fits (by omega)]
    exact ⟨dht, f, by rw [decide_eq_true (by omega)], h, rfl⟩
  · obtain rfl : p = [] := List.eq_nil_of_length_eq_zero (by omega)
    rw [rfcSize_nil] at hroom
    exact ⟨dht, f, by rw [decide_eq_false (by omega)], h, rfl⟩
  · have hp : p ≠ [] := by
      rintro rfl
      exact hzero hused
    obtain ⟨dht₁, f₁, hrun, hentries, hsame⟩ :=
      Entries.makeRoomLoop hneeded p h.toEntries hp hsize (by
        have hpos := List.length_pos_of_ne_nil hp
        have hge := rfcSize_ge p
        omega)
    have hlayout := hentries.pack (by rw [hsame.size]; exact hsize)
    have hsame' : (packIndex dht₁ (rfcKeep (dht.size - (needed + 32)) p).length).size = dht.size := by
      rw [packIndex_size, hsame.size]
    refine ⟨_, f₁, ?_, hlayout, hsame'⟩
    rw [← hused] at hrun
    rw [hpackDhtMakeRoomLoop_eq hrun, hneed, hsame']

/-! ### Defragmentation -/

theorem next_slot {wrap head j : ℕ} (hhead : head < wrap) (hj : j + 1 < wrap) :
    (if slotAt wrap head (j + 1) + 1 ≥ wrap then 0 else slotAt wrap head (j + 1) + 1)
      = slotAt wrap head j := by
  simp only [slotAt]
  split_ifs <;> omega

/-- The entries `done` have been copied to the end of the new area, which begins at `addr`. -/
structure Copied (dht alt : HpackDht) (addr : ℕ) (done : List HpackEntry) : Prop where
  area : alt.area.length = dht.size
  room : addr + rfcSize done = dht.size + 32 * done.length
  contents : Contents addr dht.size alt.area done 0 fun j => alt.dte (done.length - 1 - j)
  size : alt.size = dht.size
  total : alt.total = dht.total
  wrap : alt.wrap = dht.used
  used : alt.used = dht.used

/-- One turn copies the oldest entry that is left. -/
theorem Copied.next {alt : HpackDht} {addr slot : ℕ} {done : List HpackEntry} {e : HpackEntry}
    {floor : ℕ} (h : Copied dht alt addr done)
    (harea : dht.area.length = dht.size) (hold : Holds floor dht.size dht.area (dht.dte slot) e)
    (hroom : rfcSize (e :: done) ≤ dht.size) :
    ∃ area, memcpy alt.area (addr - entryLen e) dht.area (dht.dte slot).addr (entryLen e) = .ok area ∧
      Copied dht { alt with
          dte := Function.update alt.dte done.length
            ⟨addr - entryLen e, (dht.dte slot).nlen, (dht.dte slot).vlen⟩
          area := area } (addr - entryLen e) (e :: done) := by
  have hstop := hold.size
  rw [hold.stop_eq] at hstop
  have haddr := h.room
  have hge := rfcSize_ge done
  rw [rfcSize_cons, rfcCost] at hroom
  have halt := h.area
  have hentry : e.1.length + e.2.length = entryLen e := rfl
  obtain ⟨area, hcopy, hlen, hbytes⟩ := memcpy_spec alt.area (addr - entryLen e) dht.area
    (dht.dte slot).addr (entryLen e) (.inr (by omega))
  refine ⟨area, hcopy, by rw [← halt, ← hlen], ?_, ?_, h.size, h.total, h.wrap, h.used⟩
  · rw [rfcSize_cons, rfcCost, List.length_cons]
    omega
  -- the copy is below all entries that were copied before
  have hframe : Contents (addr - entryLen e) dht.size area done 0
      fun j => alt.dte (done.length - 1 - j) := by
    refine (h.contents.mono (Nat.sub_le _ _)).frame fun j hj x hx _ => ?_
    have hfloor := (h.contents.holds_lt hj).floor
    rw [hbytes, if_neg (by omega)]
  have hnew : Holds (addr - entryLen e) dht.size area
      ⟨addr - entryLen e, (dht.dte slot).nlen, (dht.dte slot).vlen⟩ e := by
    refine ⟨hold.nlen, hold.vlen, Nat.le_refl _, ?_, fun x hx => ?_⟩
    · show addr - entryLen e + (dht.dte slot).nlen + (dht.dte slot).vlen ≤ dht.size
      rw [hold.nlen, hold.vlen]
      omega
    · show area[addr - entryLen e + x]? = _
      rw [hbytes, if_pos (by omega), Nat.add_sub_cancel_left]
      exact hold.bytes x hx
  have hpush := hframe.push_front hnew fun j hj => by
    have hfloor := (h.contents.holds_lt hj).floor
    show addr - entryLen e + (dht.dte slot).nlen + (dht.dte slot).vlen ≤ _
    rw [hold.nlen, hold.vlen]
    omega
  refine hpush.congr fun j hj => ?_
  rw [List.length_cons] at hj
  rcases j with - | j
  · show Function.update alt.dte done.length _ (done.length + 1 - 1 - 0) = _
    rw [Nat.add_sub_cancel, Nat.sub_zero, Function.update_self]
    rfl
  · have hne : (e :: done).length - 1 - (j + 1) ≠ done.length := by
      rw [List.length_cons]
      omega
    show Function.update alt.dte done.length _ _ = alt.dte _
    rw [Function.update_of_ne hne]
    congr 1
    rw [List.length_cons]
    omega

theorem Copied.defragLoop (hsize : dht.size ≤ hpackMaxSize) (rest : List HpackEntry) :
    ∀ {alt : HpackDht} {addr : ℕ} (old : ℕ) (done : List HpackEntry), Entries dht (rest ++ done) f →
      (rest ≠ [] → old = slotAt dht.wrap dht.head (rest.length - 1)) → Copied dht alt addr done →
      ∃ alt' addr', defragLoop dht rest.length done.length old addr alt = .ok alt' ∧
        Copied dht alt' addr' (rest ++ done) := by
  induction rest using List.reverseRecOn with
  | nil =>
    intro alt addr old done _ _ h
    exact ⟨alt, addr, rfl, h⟩
  | append_singleton rest e ih =>
    intro alt addr old done hentries hold h
    have hne : rest ++ [e] ++ done ≠ [] := by simp
    have hlen : (rest ++ [e]).length = rest.length + 1 := by simp
    have hhead := hentries.head_lt hne
    have hle := hentries.le_wrap hne
    simp only [List.length_append, List.length_singleton] at hle
    have hslot : old = slotAt dht.wrap dht.head rest.length := by
      rw [hold (by simp), hlen, Nat.add_sub_cancel]
    have hentry := hentries.contents.holds rest.length e (by simp)
    rw [← hslot] at hentry
    have hfits := hentries.fits
    rw [List.append_assoc, List.singleton_append] at hentries hfits ⊢
    have hroom : rfcSize (e :: done) ≤ dht.size := by
      rw [rfcSize_append] at hfits
      omega
    obtain ⟨area, hcopy, hnext⟩ := h.next hentries.area hentry hroom
    have haddr := h.room
    have hge := rfcSize_ge done
    have hmax : dht.size ≤ 524303 := hsize
    have hlen' : (dht.dte old).nlen + (dht.dte old).vlen = entryLen e := by
      rw [hentry.nlen, hentry.vlen, entryLen]
    have hu : u32 (addr - ((dht.dte old).nlen + (dht.dte old).vlen)) = addr - entryLen e := by
      rw [rfcSize_cons, rfcCost] at hroom
      exact u32_of_lt (by omega) (by omega)
    obtain ⟨alt', addr', hrun, hdone⟩ := ih (if old + 1 ≥ dht.wrap then 0 else old + 1) _
      hentries (fun hrest => by
        have hpos := List.length_pos_of_ne_nil hrest
        have hstep := next_slot (j := rest.length - 1) hhead (by omega)
        rw [Nat.sub_add_cancel hpos] at hstep
        rw [hslot]
        exact hstep) hnext
    refine ⟨alt', addr', ?_, hdone⟩
    rw [hlen]
    simp only [SmartHAProxy.defragLoop, hu, hlen', hcopy]
    exact hrun

/-- **Defragmentation** keeps the entries, with the smallest index and the contents at the
end of the area. -/
theorem hpackDhtDefrag_spec (h : Layout dht p f) (hp : p ≠ []) (hsize : dht.size ≤ hpackMaxSize) :
    ∃ dht', hpackDhtDefrag dht = .ok dht' ∧ Layout dht' p 0 ∧ dht'.size = dht.size ∧
      dht'.wrap = p.length ∧ dht'.head + 1 = p.length ∧
      ∀ j < p.length, dht.size - dht.total ≤ (dht'.dte (slotAt dht'.wrap dht'.head j)).addr := by
  have hpos := List.length_pos_of_ne_nil hp
  have hmax : dht.size ≤ 524303 := hsize
  have hwrap := h.wrap_lt hp
  have hlt := h.length_lt
  have htotal := h.total
  have hfits := h.fits
  have htail : hpackDhtGetTail dht = slotAt dht.wrap dht.head (p.length - 1) := by
    rw [hpackDhtGetTail, h.used]
    exact tailSlot_eq hpos (h.head_lt hp) (h.le_wrap hp) (by omega)
  have hstart : Copied dht { hpackDhtAlloc dht.size with
      total := dht.total, used := dht.used, wrap := dht.used } dht.size [] := by
    exact ⟨List.length_replicate, rfl, contents_nil .., rfl, rfl, rfl, rfl⟩
  obtain ⟨alt, addr, hrun, hdone⟩ := Copied.defragLoop hsize p _ [] (by
    rw [List.append_nil]
    exact h.toEntries) (fun _ => htail) hstart
  rw [List.append_nil] at hdone
  have haddr := hdone.room
  have hlast : u16 (dht.used - 1) = p.length - 1 := by
    rw [h.used]
    exact u16_of_lt (by omega) (by omega)
  -- the oldest entry is in slot 0 now, the newest in the last one
  have hslot : ∀ j < p.length, slotAt p.length (p.length - 1) j = p.length - 1 - j :=
    fun j hj => slotAt_of_le (by omega)
  have hcontents : Contents addr dht.size alt.area p 0
      fun j => alt.dte (slotAt p.length (p.length - 1) j) := by
    refine hdone.contents.congr fun j hj => ?_
    rw [hslot j hj]
  refine ⟨{ alt with front := p.length - 1, head := p.length - 1 }, ?_, ?_, hdone.size,
    hdone.wrap.trans h.used, Nat.sub_add_cancel hpos, fun j hj => ?_⟩
  · simp only [hpackDhtDefrag]
    rw [← hlast, h.used]
    rw [List.length_nil] at hrun
    show Except.bind (defragLoop dht p.length 0 (hpackDhtGetTail dht) dht.size _) _ = _
    rw [← h.used] at hrun ⊢
    rw [hrun]
    rfl
  · have hw : alt.wrap = p.length := hdone.wrap.trans h.used
    refine ⟨⟨?_, ?_, ?_, ?_, ?_, fun _ => hpos, ?_, ?_⟩, hdone.used.trans h.used, ?_⟩
    · exact hdone.area.trans hdone.size.symm
    · show alt.total + _ = _
      rw [hdone.total]
      exact h.total
    · show _ ≤ alt.size
      rw [hdone.size]
      exact h.fits
    · intro _
      show p.length - 1 < alt.wrap
      omega
    · intro _
      exact Nat.le_of_eq hw.symm
    · intro _
      show p.length - 1 = slotAt alt.wrap (p.length - 1) 0
      rw [slotAt_of_le (Nat.zero_le _), Nat.sub_zero]
    · show Contents (16 + 8 * alt.wrap) alt.size alt.area p 0
        fun j => alt.dte (slotAt alt.wrap (p.length - 1) j)
      rw [hw, hdone.size]
      exact hcontents.mono (by omega)
    · intro _ _
      show alt.wrap = p.length - 1 + 1
      omega
  · show dht.size - dht.total ≤ (alt.dte (slotAt alt.wrap (p.length - 1) j)).addr
    rw [hdone.wrap, h.used]
    have hfloor := (hcontents.holds_lt hj).floor
    omega

end SmartHAProxy
