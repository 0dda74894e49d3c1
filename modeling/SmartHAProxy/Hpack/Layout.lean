/-
Where the dynamic table has its entries.

The table of RFC 7541 is the list of its entries, the newest first; an insertion
keeps the newest entries that fit (`rfcInsert`).

`Index` says that the slots of the entries go down from `head`, and continue at
`wrap` below slot 0.  `Contents` says where the contents are.  There are two
groups: the front cell and the entries older than it, and the entries newer than
it, which are above all of those.  In a group the newer entry is below the older
one.
-/
import SmartHAProxy.Hpack.Table

namespace SmartHAProxy

variable {e : HpackEntry} {j : ℕ} {d : HpackDte}

/-! ### The table of RFC 7541 -/

abbrev HpackEntry := CStr × CStr

def entryLen (e : HpackEntry) : ℕ := e.1.length + e.2.length

/-- The size of an entry counts 32 bytes more (RFC 7541, 4.1). -/
def rfcCost (e : HpackEntry) : ℕ := entryLen e + 32

def rfcSize (p : List HpackEntry) : ℕ := (p.map rfcCost).sum

/-- The newest entries that fit into `room`; the others are evicted. -/
def rfcKeep : ℕ → List HpackEntry → List HpackEntry
  | _, [] => []
  | room, e :: p => if rfcCost e ≤ room then e :: rfcKeep (room - rfcCost e) p else []

/-- Insertion into a table of `size` bytes (RFC 7541, 4.4).  An entry larger than
the table empties it. -/
def rfcInsert (size : ℕ) (p : List HpackEntry) (e : HpackEntry) : List HpackEntry :=
  rfcKeep size (e :: p)

@[simp] theorem rfcSize_nil : rfcSize [] = 0 := rfl

@[simp] theorem rfcSize_cons (e : HpackEntry) (p : List HpackEntry) :
    rfcSize (e :: p) = rfcCost e + rfcSize p := rfl

@[simp] theorem rfcSize_append (p q : List HpackEntry) :
    rfcSize (p ++ q) = rfcSize p + rfcSize q := by
  induction p with
  | nil => simp
  | cons e p ih =>
    rw [List.cons_append, rfcSize_cons, rfcSize_cons, ih]
    omega

theorem rfcKeep_of_fits {p : List HpackEntry} : ∀ {room : ℕ}, rfcSize p ≤ room → rfcKeep room p = p := by
  induction p with
  | nil =>
    intro room _
    rfl
  | cons e p ih =>
    intro room h
    rw [rfcSize_cons] at h
    rw [rfcKeep, if_pos (by omega), ih (by omega)]

theorem rfcKeep_concat {p : List HpackEntry} :
    ∀ {room : ℕ}, room < rfcSize (p ++ [e]) → rfcKeep room (p ++ [e]) = rfcKeep room p := by
  induction p with
  | nil =>
    intro room h
    rw [List.nil_append, rfcSize_cons, rfcSize_nil] at h
    exact if_neg (by omega)
  | cons e' p ih =>
    intro room h
    rw [List.cons_append, rfcSize_cons] at h
    rw [List.cons_append, rfcKeep, rfcKeep]
    split_ifs with hroom
    · rw [ih (by omega)]
    · rfl

theorem rfcSize_rfcKeep_le (room : ℕ) (p : List HpackEntry) : rfcSize (rfcKeep room p) ≤ room := by
  induction p generalizing room with
  | nil => exact Nat.zero_le room
  | cons e p ih =>
    rw [rfcKeep]
    split_ifs with hroom
    · have hle := ih (room - rfcCost e)
      rw [rfcSize_cons]
      omega
    · exact Nat.zero_le room

theorem rfcInsert_of_fits {size : ℕ} {p : List HpackEntry} (h : rfcCost e ≤ size) :
    rfcInsert size p e = e :: rfcKeep (size - rfcCost e) p := by
  rw [rfcInsert, rfcKeep, if_pos h]

theorem rfcInsert_of_large {size : ℕ} {p : List HpackEntry} (h : size < rfcCost e) :
    rfcInsert size p e = [] := by
  rw [rfcInsert, rfcKeep, if_neg (by omega)]

/-! ### Slots -/

/-- The slot of the entry with `j` newer ones. -/
def slotAt (wrap head j : ℕ) : ℕ := if j ≤ head then head - j else head + wrap - j

/-- `k` entries have their slots below `wrap`; if they go down to slot 0 at most, the
slots above `head` are not allocated. -/
structure Index (wrap head k : ℕ) : Prop where
  head_lt : head < wrap
  le_wrap : k ≤ wrap
  packed : k ≤ head + 1 → wrap = head + 1

variable {wrap head k : ℕ}

theorem Index.slot_lt (h : Index wrap head k) (hj : j < k) : slotAt wrap head j < wrap := by
  obtain ⟨h₁, h₂, -⟩ := h
  rw [slotAt]
  split_ifs <;> omega

theorem Index.slot_inj (h : Index wrap head k) {i : ℕ} (hi : i < k) (hj : j < k)
    (heq : slotAt wrap head i = slotAt wrap head j) : i = j := by
  obtain ⟨h₁, h₂, -⟩ := h
  simp only [slotAt] at heq
  split_ifs at heq <;> omega

/-- The slots after an insertion: a new one for the new entry, and those of the others. -/
structure NextIndex (wrap head wrap' head' k : ℕ) : Prop where
  index : Index wrap' head' (k + 1)
  slot : ∀ j < k, slotAt wrap' head' (j + 1) = slotAt wrap head j
  fresh : ∀ j < k, slotAt wrap head j ≠ head'

theorem Index.next_push (h : Index wrap head k) (hlead : wrap ≤ head + 1) :
    NextIndex wrap head (wrap + 1) (head + 1) k := by
  obtain ⟨h₁, h₂, -⟩ := h
  refine ⟨⟨by omega, by omega, by omega⟩, fun j hj => ?_, fun j hj => ?_⟩
  all_goals
    simp only [slotAt]
    split_ifs <;> omega

theorem Index.next_loop (h : Index wrap head k) (hlead : wrap ≤ head + 1) (hk : 0 < k)
    (hhole : k + 1 ≤ head + 1) : NextIndex wrap head wrap 0 k := by
  obtain ⟨h₁, h₂, -⟩ := h
  refine ⟨⟨by omega, by omega, by omega⟩, fun j hj => ?_, fun j hj => ?_⟩
  all_goals
    simp only [slotAt]
    split_ifs <;> omega

theorem Index.next_follow (h : Index wrap head k) (hhead : head + 1 < wrap) (hk : k + 1 < wrap) :
    NextIndex wrap head wrap (head + 1) k := by
  obtain ⟨h₁, h₂, h₃⟩ := h
  refine ⟨⟨by omega, by omega, by omega⟩, fun j hj => ?_, fun j hj => ?_⟩
  all_goals
    simp only [slotAt]
    split_ifs <;> omega

/-! ### Contents -/

/-- The area holds the entry described by `d`, between `floor` and `size`. -/
structure Holds (floor size : ℕ) (area : List UInt8) (d : HpackDte) (e : HpackEntry) : Prop where
  nlen : d.nlen = e.1.length
  vlen : d.vlen = e.2.length
  floor : floor ≤ d.addr
  size : d.stop ≤ size
  bytes : ∀ x < entryLen e, area[d.addr + x]? = (e.1 ++ e.2)[x]?

/-- The descriptors of the entries `p` are `desc 0`, `desc 1`, ..., and the front cell is
the one of number `f`. -/
structure Contents (floor size : ℕ) (area : List UInt8) (p : List HpackEntry) (f : ℕ)
    (desc : ℕ → HpackDte) : Prop where
  holds : ∀ j e, p[j]? = some e → Holds floor size area (desc j) e
  across : ∀ i j, i < f → f ≤ j → j < p.length → (desc j).stop ≤ (desc i).addr
  within : ∀ i j, i < j → j < p.length → (j < f ∨ f ≤ i) → (desc i).stop ≤ (desc j).addr

variable {floor floor' size : ℕ} {area : List UInt8} {p : List HpackEntry} {f : ℕ}
  {desc desc' : ℕ → HpackDte}

theorem contents_nil (floor size : ℕ) (area : List UInt8) (f : ℕ) (desc : ℕ → HpackDte) :
    Contents floor size area [] f desc := by
  refine ⟨fun j e he => ?_, fun i j _ _ hj => ?_, fun i j _ hj => ?_⟩
  · simp at he
  · cases hj
  · cases hj

theorem Holds.stop_eq (h : Holds floor size area d e) : d.stop = d.addr + entryLen e := by
  rw [HpackDte.stop, h.nlen, h.vlen, entryLen, Nat.add_assoc]

theorem Contents.holds_lt (h : Contents floor size area p f desc) (hj : j < p.length) :
    Holds floor size area (desc j) p[j] := h.holds j _ (List.getElem?_eq_getElem hj)

theorem Contents.mono (h : Contents floor size area p f desc) (hfloor : floor' ≤ floor) :
    Contents floor' size area p f desc := by
  refine ⟨fun j e he => ?_, h.across, h.within⟩
  obtain ⟨h₁, h₂, h₃, h₄, h₅⟩ := h.holds j e he
  exact ⟨h₁, h₂, Nat.le_trans hfloor h₃, h₄, h₅⟩

theorem Contents.lower (h : Contents floor size area p f desc) (hf : f < p.length)
    (hfloor : floor' ≤ (desc f).addr) : Contents floor' size area p f desc := by
  refine ⟨fun j e he => ?_, h.across, h.within⟩
  have hj : j < p.length := (List.getElem?_eq_some_iff.mp he).1
  obtain ⟨h₁, h₂, -, h₄, h₅⟩ := h.holds j e he
  refine ⟨h₁, h₂, Nat.le_trans hfloor ?_, h₄, h₅⟩
  have hstop : (desc f).addr ≤ (desc f).stop := by
    rw [HpackDte.stop]
    omega
  rcases Nat.lt_trichotomy j f with hlt | rfl | hgt
  · exact Nat.le_trans hstop (h.across j f hlt (Nat.le_refl f) hf)
  · exact Nat.le_refl _
  · exact Nat.le_trans hstop (h.within f j hgt hj (.inr (Nat.le_refl f)))

theorem Contents.congr (h : Contents floor size area p f desc)
    (heq : ∀ j < p.length, desc' j = desc j) : Contents floor size area p f desc' := by
  refine ⟨fun j e he => ?_, fun i j hi hf hj => ?_, fun i j hi hj hor => ?_⟩
  · rw [heq j (List.getElem?_eq_some_iff.mp he).1]
    exact h.holds j e he
  · rw [heq j hj, heq i (by omega)]
    exact h.across i j hi hf hj
  · rw [heq j hj, heq i (by omega)]
    exact h.within i j hi hj hor

theorem Contents.evict (h : Contents floor size area (p ++ [e]) f desc) :
    Contents floor size area p (if f = p.length then 0 else f) desc := by
  have hlen : (p ++ [e]).length = p.length + 1 := by simp
  refine ⟨fun j e' he => ?_, fun i j hi hf hj => ?_, fun i j hi hj hor => ?_⟩
  · have hj : j < p.length := (List.getElem?_eq_some_iff.mp he).1
    refine h.holds j e' ?_
    rw [List.getElem?_append_left hj, he]
  · split_ifs at hi hf
    · omega
    · exact h.across i j hi hf (by omega)
  · refine h.within i j hi (by omega) ?_
    split_ifs at hor <;> omega

theorem Contents.disjoint (h : Contents floor size area p f desc) {i : ℕ} (hne : i ≠ j)
    (hi : i < p.length) (hj : j < p.length) :
    (desc i).stop ≤ (desc j).addr ∨ (desc j).stop ≤ (desc i).addr := by
  -- the two cases of an order, for the newer one of both
  have horder {a b : ℕ} (hab : a < b) (hb : b < p.length) :
      (desc a).stop ≤ (desc b).addr ∨ (desc b).stop ≤ (desc a).addr := by
    by_cases hcross : a < f ∧ f ≤ b
    · exact .inr (h.across a b hcross.1 hcross.2 hb)
    · exact .inl (h.within a b hab hb (by omega))
  rcases Nat.lt_or_gt_of_ne hne with hlt | hgt
  · exact horder hlt hj
  · exact (horder hgt hi).symm

theorem Contents.frame (h : Contents floor size area p f desc) {area' : List UInt8}
    (hsame : ∀ j < p.length, ∀ x, (desc j).addr ≤ x → x < (desc j).stop → area'[x]? = area[x]?) :
    Contents floor size area' p f desc := by
  refine ⟨fun j e he => ?_, h.across, h.within⟩
  have hold := h.holds j e he
  refine ⟨hold.nlen, hold.vlen, hold.floor, hold.size, fun x hx => ?_⟩
  have hstop := hold.stop_eq
  rw [hsame j (List.getElem?_eq_some_iff.mp he).1 _ (by omega) (by omega)]
  exact hold.bytes x hx

/-- Descriptors with a new one for the newest entry. -/
def pushDesc (d : HpackDte) (desc : ℕ → HpackDte) : ℕ → HpackDte
  | 0 => d
  | j + 1 => desc j

theorem Contents.holds_push (h : Contents floor size area p f desc) (hd : Holds floor size area d e)
    (j : ℕ) (e' : HpackEntry) (he : (e :: p)[j]? = some e') :
    Holds floor size area (pushDesc d desc j) e' := by
  rcases j with - | j
  · obtain rfl : e = e' := by simpa using he
    exact hd
  · exact h.holds j e' (by simpa using he)

theorem Contents.push_front (h : Contents floor size area p 0 desc) (hd : Holds floor size area d e)
    (hbelow : ∀ j < p.length, d.stop ≤ (desc j).addr) :
    Contents floor size area (e :: p) 0 (pushDesc d desc) := by
  refine ⟨h.holds_push hd, fun i j hi => by omega, fun i j hij hj _ => ?_⟩
  rw [List.length_cons] at hj
  obtain ⟨j, rfl⟩ : ∃ j', j = j' + 1 := ⟨j - 1, by omega⟩
  rcases i with - | i
  · exact hbelow j (by omega)
  · exact h.within i j (by omega) (by omega) (.inr (Nat.zero_le i))

theorem Contents.push_behind (h : Contents floor size area p f desc)
    (hd : Holds floor size area d e) (hbelow : ∀ j < f, d.stop ≤ (desc j).addr)
    (habove : ∀ j, f ≤ j → j < p.length → (desc j).stop ≤ d.addr) :
    Contents floor size area (e :: p) (f + 1) (pushDesc d desc) := by
  refine ⟨h.holds_push hd, fun i j hi hf hj => ?_, fun i j hij hj hor => ?_⟩
  · rw [List.length_cons] at hj
    obtain ⟨j, rfl⟩ : ∃ j', j = j' + 1 := ⟨j - 1, by omega⟩
    rcases i with - | i
    · exact habove j (by omega) (by omega)
    · exact h.across i j (by omega) (by omega) (by omega)
  · rw [List.length_cons] at hj
    obtain ⟨j, rfl⟩ : ∃ j', j = j' + 1 := ⟨j - 1, by omega⟩
    rcases i with - | i
    · exact hbelow j (by omega)
    · exact h.within i j (by omega) (by omega) (by omega)

theorem Contents.stop_le_tail (h : Contents floor size area p f desc) (hf : f ≤ j)
    (hj : j < p.length) : (desc j).stop ≤ (desc (p.length - 1)).stop := by
  rcases Nat.lt_or_ge j (p.length - 1) with hlt | hge
  · have hle := h.within j (p.length - 1) hlt (by omega) (.inr hf)
    refine Nat.le_trans hle ?_
    rw [HpackDte.stop]
    omega
  · obtain rfl : j = p.length - 1 := by omega
    exact Nat.le_refl _

theorem Contents.head_le_addr (h : Contents floor size area p f desc) (hf : f = 0 ∨ j < f)
    (hj : j < p.length) : (desc 0).addr ≤ (desc j).addr := by
  rcases Nat.eq_zero_or_pos j with rfl | hpos
  · exact Nat.le_refl _
  · have hle := h.within 0 j hpos hj (by omega)
    refine Nat.le_trans ?_ hle
    rw [HpackDte.stop]
    omega

/-! ### The table -/

/-- The table has the entries `p` in its slots, and nothing else counts.  This holds
while entries are evicted; `used` follows later. -/
structure Entries (dht : HpackDht) (p : List HpackEntry) (f : ℕ) : Prop where
  area : dht.area.length = dht.size
  total : dht.total + 32 * p.length = rfcSize p
  fits : rfcSize p ≤ dht.size
  head_lt : p ≠ [] → dht.head < dht.wrap
  le_wrap : p ≠ [] → p.length ≤ dht.wrap
  front_lt : p ≠ [] → f < p.length
  front : p ≠ [] → dht.front = slotAt dht.wrap dht.head f
  contents : Contents (16 + 8 * dht.wrap) dht.size dht.area p f
    fun j => dht.dte (slotAt dht.wrap dht.head j)

structure Layout (dht : HpackDht) (p : List HpackEntry) (f : ℕ) : Prop
    extends Entries dht p f where
  used : dht.used = p.length
  packed : p ≠ [] → p.length ≤ dht.head + 1 → dht.wrap = dht.head + 1

theorem Layout.index {dht : HpackDht} (h : Layout dht p f) (hp : p ≠ []) :
    Index dht.wrap dht.head p.length := ⟨h.head_lt hp, h.le_wrap hp, h.packed hp⟩

theorem layout_init (dht : HpackDht) {size : ℕ} (harea : dht.area.length = size) :
    Layout (hpackDhtInit dht size) [] 0 := by
  refine ⟨⟨harea, rfl, Nat.zero_le _, ?_, ?_, ?_, ?_, ?_⟩, rfl, ?_⟩
  · exact fun h => absurd rfl h
  · exact fun h => absurd rfl h
  · exact fun h => absurd rfl h
  · exact fun h => absurd rfl h
  · exact contents_nil ..
  · exact fun h => absurd rfl h

theorem rfcSize_ge (p : List HpackEntry) : 32 * p.length ≤ rfcSize p := by
  induction p with
  | nil => exact Nat.le_refl 0
  | cons e p ih =>
    rw [rfcSize_cons, rfcCost, List.length_cons]
    omega

end SmartHAProxy
