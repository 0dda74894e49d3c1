/-
What is read from the dynamic table, after any insertions.

`Refines` says what the functions that read the table see: at 62, 63, ... the
entries of the table of RFC 7541, in areas of their own.  Every run of insertions
into a new table leads there, as long as the 16-bit fields are wide enough: those
of the index for the number of slots, and those of an entry for its name and its
value.

Main results: `hpackDhtInsert_spec` for one insertion, `dht_refines_rfc` for runs.
-/
import SmartHAProxy.Hpack.Insert

namespace SmartHAProxy

variable {dht : HpackDht} {p : List HpackEntry} {f : ℕ} {e : HpackEntry}

/-! ### One insertion -/

/-- The lengths of an entry that is kept fit their fields, and are no more than what a
buffer holds. -/
structure EntryFits (size : ℕ) (e : HpackEntry) : Prop where
  len : entryLen e < 2 ^ 31
  name : rfcCost e ≤ size → e.1.length < 2 ^ 16
  value : rfcCost e ≤ size → e.2.length < 2 ^ 16

theorem Layout.placed_first (h : Layout dht [] f) (hfits : rfcCost e ≤ dht.size) :
    Placed { dht with
      front := 0, head := 0, wrap := 1, used := 1, total := 0
      dte := setAddr dht.dte 0 (dht.size - entryLen e) } [] e 0 := by
  have hcost : rfcCost e = entryLen e + 32 := rfl
  refine ⟨h.area, rfl, ?_, rfl, ⟨Nat.one_pos, Nat.le_refl 1, fun _ => rfl⟩, Nat.one_pos, rfl, ?_, ?_,
    0, contents_nil .., .inl ⟨rfl, rfl, fun j hj => ?_⟩⟩
  · rw [rfcSize_cons, rfcSize_nil]
    exact hfits
  · show 16 + 8 * 1 ≤ (setAddr dht.dte 0 (dht.size - entryLen e) 0).addr
    rw [setAddr_self]
    omega
  · show (setAddr dht.dte 0 (dht.size - entryLen e) 0).addr + entryLen e ≤ dht.size
    rw [setAddr_self]
    omega
  · cases hj

/-- **An insertion** does what RFC 7541 says. -/
theorem hpackDhtInsert_spec (h : Layout dht p f) (hsize : dht.size ≤ hpackMaxSize)
    (he : EntryFits dht.size e) :
    ∃ dht' f', hpackDhtInsert dht e.1 e.2 = .ok dht' ∧ Layout dht' (rfcInsert dht.size p e) f' ∧
      dht'.size = dht.size := by
  have hmax : dht.size ≤ 524303 := hsize
  have hlen := he.len
  have hneeded : u32 (e.1.length + e.2.length : ℕ) = entryLen e := u32_of_lt rfl (by omega)
  have hcost : rfcCost e = entryLen e + 32 := rfl
  obtain ⟨dht₁, f₁, hroom, hl₁, hsize₁⟩ := hpackDhtMakeRoom_spec h hsize hlen
  rw [← hcost] at hroom hl₁
  rw [hpackDhtInsert, hneeded, hroom]
  rcases Nat.lt_or_ge dht.size (rfcCost e) with hlarge | hfits
  · -- no entry can be kept beside it
    have hkeep : rfcKeep (dht.size - rfcCost e) p = [] := by
      rw [Nat.sub_eq_zero_of_le (Nat.le_of_lt hlarge)]
      rcases p with - | ⟨e', p⟩
      · rfl
      · exact if_neg (by rw [rfcCost]; omega)
    rw [hkeep] at hl₁
    rw [decide_eq_false (by omega), rfcInsert_of_large hlarge]
    exact ⟨dht₁, f₁, rfl, hl₁, hsize₁⟩
  rw [decide_eq_true hfits, rfcInsert_of_fits hfits]
  rw [← hsize₁] at hsize hfits
  generalize hq : rfcKeep (dht.size - rfcCost e) p = q at hl₁
  have hname := he.name (by omega)
  have hvalue := he.value (by omega)
  rcases eq_or_ne q [] with rfl | hne
  · have hzero : dht₁.used = 0 := hl₁.used
    have haddr : u32 (dht₁.size - (e.1.length + e.2.length : ℕ)) = dht₁.size - entryLen e := by
      have : e.1.length + e.2.length = entryLen e := rfl
      exact u32_of_lt (by omega) (by omega)
    obtain ⟨dht', hrun, hl', hsize'⟩ := insertCopy_spec (hl₁.placed_first hfits) hsize hname hvalue
    refine ⟨dht', 0, ?_, hl', hsize'.trans hsize₁⟩
    dsimp only
    rw [if_pos hzero, haddr]
    exact hrun
  · have hused : dht₁.used ≠ 0 := by
      rw [hl₁.used]
      exact Nat.ne_of_gt (List.length_pos_of_ne_nil hne)
    have hroom' : rfcSize (e :: q) ≤ dht₁.size := by
      rw [rfcSize_cons, hsize₁, ← hq]
      have hle := rfcSize_rfcKeep_le (dht.size - rfcCost e) p
      omega
    have hcons : rfcSize (e :: q) = rfcCost e + rfcSize q := rfl
    obtain ⟨pl, f₂, hindex, hslotted⟩ := placeIndex_spec hl₁ hne hsize (by omega)
    obtain ⟨dht₂, f₃, hplace, hplaced, hsize₂⟩ := placeContents_spec hslotted hne hsize hroom'
    obtain ⟨dht', hrun, hl', hsize'⟩ :=
      insertCopy_spec hplaced (by rw [hsize₂]; exact hsize) hname hvalue
    refine ⟨dht', f₃, ?_, hl', (hsize'.trans hsize₂).trans hsize₁⟩
    dsimp only
    rw [if_neg hused, hindex]
    show Except.bind (placeContents pl (entryLen e)) _ = _
    rw [hplace]
    exact hrun

/-! ### Reading -/

/-- The table shows the entries `p`, each in its own part of the area, behind the
descriptors. -/
structure Refines (dht : HpackDht) (p : List HpackEntry) : Prop where
  valid : ∀ j, hpackValidIdx dht (hpackShtSize + j) = decide (j < p.length)
  name : ∀ j e, p[j]? = some e → hpackIdxToName dht (hpackShtSize + j) = e.1
  value : ∀ j e, p[j]? = some e → hpackIdxToValue dht (hpackShtSize + j) = e.2
  inside : ∀ j < p.length, ∃ d slot, hpackGetDte dht (j + 1) = some d ∧ dht.dte slot = d ∧
    slot < dht.wrap ∧ 16 + 8 * dht.wrap ≤ d.addr ∧ d.stop ≤ dht.size
  apart : ∀ i < p.length, ∀ j < p.length, i ≠ j → ∀ d d', hpackGetDte dht (i + 1) = some d →
    hpackGetDte dht (j + 1) = some d' → d.stop ≤ d'.addr ∨ d'.stop ≤ d.addr

theorem Layout.getDte (h : Layout dht p f) (hsize : dht.size ≤ hpackMaxSize) {j : ℕ}
    (hj : j < p.length) :
    hpackGetDte dht (j + 1) = some (dht.dte (slotAt dht.wrap dht.head j)) := by
  have hp : p ≠ [] := List.ne_nil_of_length_pos (Nat.zero_lt_of_lt hj)
  have hlen := h.length_lt
  have hwrap := h.wrap_lt hp
  have hmax : dht.size ≤ 524303 := hsize
  have hle := h.le_wrap hp
  have hu : u16 ((j + 1 : ℕ) - 1) = j := u16_of_lt (by omega) (by omega)
  simp only [hpackGetDte, hu, h.used, slotAt]
  rw [if_neg (by omega)]
  split_ifs with hhead
  · rfl
  · rw [u16_of_lt (n := dht.head + dht.wrap - j) (by omega) (by omega)]

theorem take_drop_eq {area bs : List UInt8} {ofs : ℕ}
    (h : ∀ x < bs.length, area[ofs + x]? = bs[x]?) : (area.drop ofs).take bs.length = bs := by
  refine List.ext_getElem? fun x => ?_
  rw [getElem?_drop_take]
  split_ifs with hx
  · exact h x hx
  · exact (List.getElem?_eq_none (by omega)).symm

theorem Holds.getName {floor size : ℕ} {d : HpackDte} (h : Holds floor size dht.area d e) :
    hpackGetName dht d = e.1 := by
  rw [hpackGetName, h.nlen]
  refine take_drop_eq fun x hx => ?_
  rw [h.bytes x (by rw [entryLen]; omega), List.getElem?_append_left hx]

theorem Holds.getValue {floor size : ℕ} {d : HpackDte} (h : Holds floor size dht.area d e) :
    hpackGetValue dht d = e.2 := by
  rw [hpackGetValue, h.vlen, h.nlen]
  refine take_drop_eq fun x hx => ?_
  rw [Nat.add_assoc, h.bytes _ (by rw [entryLen]; omega), List.getElem?_append_right (by omega),
    Nat.add_sub_cancel_left]

theorem Layout.refines (h : Layout dht p f) (hsize : dht.size ≤ hpackMaxSize) : Refines dht p := by
  have hmax : dht.size ≤ 524303 := hsize
  have hlen := h.length_lt
  have hidx {j : ℕ} (hj : j < p.length) :
      u16 ((hpackShtSize + j : ℕ) - hpackShtSize + 1) = j + 1 := u16_of_lt (by omega) (by omega)
  refine ⟨fun j => ?_, fun j e he => ?_, fun j e he => ?_, fun j hj => ?_, fun i hi j hj hne d d' hd hd' => ?_⟩
  · rw [hpackValidIdx, h.used]
    simp only [decide_eq_decide]
    omega
  · have hj : j < p.length := (List.getElem?_eq_some_iff.mp he).1
    rw [hpackIdxToName, if_neg (by omega), hidx hj, h.getDte hsize hj]
    exact (h.contents.holds j e he).getName
  · have hj : j < p.length := (List.getElem?_eq_some_iff.mp he).1
    rw [hpackIdxToValue, if_neg (by omega), hidx hj, h.getDte hsize hj]
    exact (h.contents.holds j e he).getValue
  · have hp : p ≠ [] := List.ne_nil_of_length_pos (Nat.zero_lt_of_lt hj)
    have hcell := h.contents.holds_lt hj
    exact ⟨_, _, h.getDte hsize hj, rfl, (h.index hp).slot_lt hj, hcell.floor, hcell.size⟩
  · rw [h.getDte hsize hi] at hd
    rw [h.getDte hsize hj] at hd'
    obtain rfl := Option.some.inj hd
    obtain rfl := Option.some.inj hd'
    exact h.contents.disjoint hne hi hj

/-! ### Runs -/

def insertEntries (dht : HpackDht) (es : List HpackEntry) : Except Fault HpackDht :=
  es.foldlM (fun dht e => hpackDhtInsert dht e.1 e.2) dht

theorem Layout.insertEntries {size : ℕ} (hsize : size ≤ hpackMaxSize) :
    ∀ {es : List HpackEntry} {dht : HpackDht} {p : List HpackEntry} {f : ℕ},
      Layout dht p f → dht.size = size → (∀ e ∈ es, EntryFits size e) →
      ∃ dht' f', insertEntries dht es = .ok dht' ∧
        Layout dht' (es.foldl (rfcInsert size) p) f' ∧ dht'.size = size := by
  intro es
  induction es with
  | nil =>
    intro dht p f h hs _
    exact ⟨dht, f, rfl, h, hs⟩
  | cons e es ih =>
    intro dht p f h hs hes
    have he := hes e List.mem_cons_self
    rw [← hs] at he hsize
    obtain ⟨dht₁, f₁, hrun, hl, hs₁⟩ := hpackDhtInsert_spec h hsize he
    rw [hs] at hl
    obtain ⟨dht', f', hrest, hl', hs'⟩ := ih hl (hs₁.trans hs) fun e' he' =>
      hes e' (List.mem_cons_of_mem e he')
    refine ⟨dht', f', ?_, hl', hs'⟩
    rw [SmartHAProxy.insertEntries, List.foldlM_cons, hrun]
    exact hrest

/-- **The dynamic table refines the table of RFC 7541.** -/
theorem dht_refines_rfc (dht₀ : HpackDht) {size : ℕ} (harea : dht₀.area.length = size)
    (hsize : size ≤ hpackMaxSize) {es : List HpackEntry} (hes : ∀ e ∈ es, EntryFits size e) :
    ∃ dht, insertEntries (hpackDhtInit dht₀ size) es = .ok dht ∧
      Refines dht (es.foldl (rfcInsert size) []) := by
  obtain ⟨dht, f, hrun, hl, hs⟩ := Layout.insertEntries hsize
    (layout_init dht₀ harea) rfl hes
  refine ⟨dht, hrun, hl.refines ?_⟩
  rw [hs]
  exact hsize

/-- In a table of 74 bytes, two entries of 33 bytes have room, and a third one. -/
theorem dht_refines_rfc_three :
    ∃ dht, insertEntries (hpackDhtInit (hpackAlloc 74) 74) [([97], []), ([98], []), ([], [99])] = .ok dht ∧
      Refines dht [([], [99]), ([98], [])] := by
  have hes : ∀ e ∈ [([97], []), ([98], []), (([], [99]) : HpackEntry)], EntryFits 74 e := by
    intro e he
    simp only [List.mem_cons, List.not_mem_nil, or_false] at he
    rcases he with rfl | rfl | rfl <;> exact ⟨by decide, by decide, by decide⟩
  exact dht_refines_rfc (hpackAlloc 74) (by decide) (by decide) hes

/-! ### Values of 64 kB -/

theorem insertCopy_vlen {dht' : HpackDht} {name value : CStr}
    (h : insertCopy dht name value = .ok dht') :
    dht'.head = dht.head ∧ (dht'.dte dht'.head).vlen = u16 value.length := by
  simp only [insertCopy, bind_eq_ok_iff] at h
  obtain ⟨area₁, -, area₂, -, hd⟩ := h
  obtain rfl := Except.ok.inj hd
  refine ⟨rfl, ?_⟩
  show (Function.update dht.dte dht.head _ dht.head : HpackDte).vlen = _
  rw [Function.update_self]

theorem length_hpackIdxToValue_le {v : CStr} (hv : hpackIdxToValue dht hpackShtSize = v)
    (hused : dht.used ≠ 0) : v.length ≤ (dht.dte dht.head).vlen := by
  have hu : u16 ((hpackShtSize : ℤ) - hpackShtSize + 1) = 1 := by decide
  have hdte : hpackGetDte dht 1 = some (dht.dte dht.head) := by
    have h0 : u16 (((1 : ℕ) : ℤ) - 1) = 0 := by decide
    simp only [hpackGetDte, h0]
    rw [if_neg (by omega), if_pos (Nat.zero_le _), Nat.sub_zero]
  rw [hpackIdxToValue, if_neg (Nat.lt_irrefl _), hu, hdte] at hv
  rw [← hv]
  exact List.length_take_le _ _

/-- A table with room for a value of 65536 bytes shows an empty one. -/
theorem not_refines_of_length {v : CStr} (hv : v.length = 65536) :
    ¬ ∃ dht, insertEntries (hpackDhtInit (hpackAlloc 65568) 65568) [([], v)] = .ok dht ∧
      Refines dht ([([], v)].foldl (rfcInsert 65568) []) := by
  rintro ⟨dht, hrun, href⟩
  have hcost : rfcCost ([], v) = 65568 := by
    rw [rfcCost, entryLen, hv, List.length_nil]
  have hkept : [(([], v) : HpackEntry)].foldl (rfcInsert 65568) [] = [([], v)] := by
    rw [List.foldl_cons, List.foldl_nil, rfcInsert_of_fits (by omega)]
    rfl
  rw [hkept] at href
  have hone : hpackDhtInsert (hpackDhtInit (hpackAlloc 65568) 65568) [] v = .ok dht := by
    rw [insertEntries, List.foldlM_cons, bind_eq_ok_iff] at hrun
    obtain ⟨dht', hinsert, hnil⟩ := hrun
    obtain rfl : dht' = dht := Except.ok.inj hnil
    exact hinsert
  have hlen : u32 ((([] : CStr).length + v.length : ℕ) : ℤ) = 65536 := by
    rw [hv]
    decide
  have hsum : u32 ((0 : ℕ) * 32 + (0 : ℕ) + (65536 : ℕ) + 32) = 65568 := by decide
  have hroom : hpackDhtMakeRoom (hpackDhtInit (hpackAlloc 65568) 65568) 65536
      = (true, hpackDhtInit (hpackAlloc 65568) 65568) := if_pos (Nat.le_of_eq hsum)
  rw [hpackDhtInsert, hlen, hroom] at hone
  have hcopy := insertCopy_vlen hone
  have hvlen : (dht.dte dht.head).vlen = 0 := by
    rw [hcopy.2, hv]
    decide
  have hused : dht.used ≠ 0 := by
    intro h0
    have hvalid := href.valid 0
    rw [hpackValidIdx, h0, List.length_singleton] at hvalid
    revert hvalid
    decide
  have hvalue := length_hpackIdxToValue_le (href.value 0 _ rfl) hused
  rw [hvlen, hv] at hvalue
  omega

theorem not_dht_refines_rfc :
    ¬ ∃ dht, insertEntries (hpackDhtInit (hpackAlloc 65568) 65568) [([], List.replicate 65536 0)] = .ok dht ∧
      Refines dht ([([], List.replicate 65536 0)].foldl (rfcInsert 65568) []) :=
  not_refines_of_length List.length_replicate

end SmartHAProxy
