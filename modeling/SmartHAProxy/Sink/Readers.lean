/-
The bytes of a ring (ring.c).

`ringBytes cnt i ms` are the messages `ms` from number `i` on, each behind its counter,
and the last counter.  Deleting the first message, appending one, counting at a place
and looking at the message behind it are stated on these bytes.

Readers see every message once and in order (ring.c).

`RingSys.Holds` is the state of a ring after `base` of its messages are deleted, with a
place for every reader: the number of messages before it.  Each operation keeps it.

`ring_runs` is about whole runs: no `BUG_ON`, and the state holds, as long as no reader
stops at the offset that stands for one that has not read yet.  What a channel refuses
for good is passed over like a message that is too large for the trash.
-/
import Mathlib.Data.List.Forall2
import SmartHAProxy.Sink.Ring

namespace SmartHAProxy

/-! ### Records -/

/-- The bytes of a message with the counter before it. -/
def recSize (m : CStr) : ℕ := 1 + (varint m.length).length + m.length

def recSpan (ms : List CStr) : ℕ := (ms.map recSize).sum

/-- The messages from number `i` on, each behind its counter. -/
def recBody (cnt : ℕ → UInt8) : ℕ → List CStr → CStr
  | _, [] => []
  | i, m :: ms => cnt i :: (varint m.length ++ m ++ recBody cnt (i + 1) ms)

/-- The content of the buffer: the messages and the last counter. -/
def ringBytes (cnt : ℕ → UInt8) (i : ℕ) (ms : List CStr) : CStr :=
  recBody cnt i ms ++ [cnt (i + ms.length)]

@[simp] theorem recSpan_nil : recSpan [] = 0 := rfl

@[simp] theorem recSpan_cons (m : CStr) (ms : List CStr) :
    recSpan (m :: ms) = recSize m + recSpan ms := by
  simp [recSpan]

@[simp] theorem recSpan_append (ms ns : List CStr) :
    recSpan (ms ++ ns) = recSpan ms + recSpan ns := by
  simp [recSpan]

section Bytes

variable {cnt cnt' : ℕ → UInt8} {i : ℕ} {m : CStr} {ms ns : List CStr}

@[simp] theorem length_recBody : (recBody cnt i ms).length = recSpan ms := by
  induction ms generalizing i with
  | nil => rfl
  | cons m ms ih =>
    rw [recBody, List.length_cons, List.length_append, List.length_append, ih, recSpan_cons,
      recSize]
    omega

theorem length_ringBytes : (ringBytes cnt i ms).length = recSpan ms + 1 := by
  rw [ringBytes, List.length_append, length_recBody, List.length_singleton]

theorem recBody_append :
    recBody cnt i (ms ++ ns) = recBody cnt i ms ++ recBody cnt (i + ms.length) ns := by
  induction ms generalizing i with
  | nil => rfl
  | cons m ms ih =>
    rw [List.cons_append, recBody, recBody, ih, List.length_cons, Nat.add_right_comm,
      Nat.add_assoc]
    simp

theorem ringBytes_append :
    ringBytes cnt i (ms ++ ns) = recBody cnt i ms ++ ringBytes cnt (i + ms.length) ns := by
  rw [ringBytes, ringBytes, recBody_append, List.length_append, List.append_assoc, Nat.add_assoc]

theorem ringBytes_cons : ringBytes cnt i (m :: ms) =
    cnt i :: (varint m.length ++ m ++ ringBytes cnt (i + 1) ms) := by
  rw [ringBytes, ringBytes, recBody, List.length_cons, Nat.add_right_comm, Nat.add_assoc]
  simp

theorem headD_ringBytes : (ringBytes cnt i ms).headD 0 = cnt i := by
  cases ms with
  | nil => rfl
  | cons m ms =>
    rw [ringBytes_cons]
    rfl

theorem recBody_congr (h : ∀ j, i ≤ j → j < i + ms.length → cnt j = cnt' j) :
    recBody cnt i ms = recBody cnt' i ms := by
  induction ms generalizing i with
  | nil => rfl
  | cons m ms ih =>
    rw [List.length_cons] at h
    rw [recBody, recBody, h i (Nat.le_refl i) (by omega),
      ih fun j h1 h2 => h j (by omega) (by omega)]

theorem ringBytes_congr (h : ∀ j, i ≤ j → j ≤ i + ms.length → cnt j = cnt' j) :
    ringBytes cnt i ms = ringBytes cnt' i ms := by
  rw [ringBytes, ringBytes, recBody_congr fun j h1 h2 => h j h1 (by omega),
    h _ (by omega) (Nat.le_refl _)]

theorem drop_ringBytes_cons :
    (ringBytes cnt i (m :: ms)).drop (recSize m) = ringBytes cnt (i + 1) ms := by
  have hlen : recSize m = (cnt i :: (varint m.length ++ m)).length := by
    rw [List.length_cons, List.length_append, recSize]
    omega
  rw [ringBytes_cons, ← List.cons_append, hlen, List.drop_left]

theorem ringBytes_concat (h : cnt (i + ms.length + 1) = 0) :
    ringBytes cnt i ms ++ varint m.length ++ m ++ [0] = ringBytes cnt i (ms ++ [m]) := by
  rw [ringBytes_append, ringBytes_cons, ringBytes, ringBytes, recBody, List.length_nil,
    Nat.add_zero, h]
  simp

theorem modify_append {α : Type*} {f : α → α} (l r : List α) :
    (l ++ r).modify l.length f = l ++ r.modify 0 f := by
  induction l with
  | nil => rfl
  | cons a l ih => exact congrArg (a :: ·) ih

theorem modify_ringBytes {f : UInt8 → UInt8} {k : ℕ} (hk : i + ms.length = k)
    (hf : cnt' k = f (cnt k)) (hne : ∀ j, j ≠ k → cnt' j = cnt j) :
    (ringBytes cnt i (ms ++ ns)).modify (recSpan ms) f = ringBytes cnt' i (ms ++ ns) := by
  have hbody : recBody cnt' i ms = recBody cnt i ms :=
    recBody_congr fun j _ h2 => hne j (by omega)
  have hhead : (ringBytes cnt k ns).modify 0 f = ringBytes cnt' k ns := by
    cases ns with
    | nil =>
      show [f (cnt k)] = [cnt' k]
      rw [hf]
    | cons m ns =>
      have hrest : ringBytes cnt' (k + 1) ns = ringBytes cnt (k + 1) ns :=
        ringBytes_congr fun j h1 _ => hne j (by omega)
      rw [ringBytes_cons, ringBytes_cons, hf, hrest]
      rfl
  have hlen : (recBody cnt i ms).length = recSpan ms := length_recBody
  rw [ringBytes_append, ringBytes_append, hk, hbody, ← hhead, ← hlen, modify_append]

theorem bPeekVarint_ringBytes (pre : CStr) (hm : m.length < 2 ^ 64) :
    bPeekVarint (pre ++ ringBytes cnt i (m :: ms)) (pre.length + 1) =
      some (m.length, (varint m.length).length) := by
  have hdrop : (pre ++ ringBytes cnt i (m :: ms)).drop (pre.length + 1) =
      varint m.length ++ (m ++ ringBytes cnt (i + 1) ms) := by
    rw [ringBytes_cons, List.drop_append]
    simp
  rw [bPeekVarint, hdrop, decodeVarint_varint hm, Option.map_some]
  have hlen : (pre ++ ringBytes cnt i (m :: ms)).length - (pre.length + 1) -
      (m ++ ringBytes cnt (i + 1) ms).length = (varint m.length).length := by
    rw [ringBytes_cons]
    simp only [List.length_append, List.length_cons]
    omega
  rw [hlen, UInt64.toNat_ofNat', Nat.mod_eq_of_lt hm]

theorem take_ringBytes {pre : CStr} :
    ((pre ++ ringBytes cnt i (m :: ms)).drop (pre.length + (1 + (varint m.length).length))).take
      m.length = m := by
  have hdrop : (pre ++ ringBytes cnt i (m :: ms)).drop (pre.length + (1 + (varint m.length).length))
      = m ++ ringBytes cnt (i + 1) ms := by
    rw [ringBytes_cons, List.append_assoc, ← List.cons_append, ← List.append_assoc]
    have hlen : pre.length + (1 + (varint m.length).length) =
        (pre ++ cnt i :: varint m.length).length := by
      rw [List.length_append, List.length_cons]
      omega
    rw [hlen, List.drop_left]
  rw [hdrop, List.take_left]

end Bytes

/-! ### The state of a ring -/

/-- The counter at place `j`, when `places` are those of the readers. -/
def ringCnt (places : List (Option ℕ)) (j : ℕ) : UInt8 := UInt8.ofNat (places.count (some j))

/-- The reader is at the place: it has not read yet, or it got the messages from
number `start` on up to its place, and `start` is no later than its first read. -/
inductive RingPlaced (trashSize : ℕ) (written : List CStr) (base : ℕ) (r : RingReader) :
    Option ℕ → Prop
  | waiting (hofs : r.o0 = ringNoOfs) (hfirst : r.first = none) (hgot : r.got = []) :
      RingPlaced trashSize written base r none
  | reading {k start first : ℕ} (hofs : r.o0 = recSpan (written.take k) % 2 ^ 64)
      (hfirst : r.first = some first) (hstart : start ≤ first) (hle : start ≤ k)
      (hbase : base ≤ k) (hk : k ≤ written.length)
      (hgot : r.got.map Prod.fst = (written.drop start).take (k - start))
      (hfate : ∀ e ∈ r.got, e.2 = .tooLarge ↔ trashSize < e.1.length + 1) :
      RingPlaced trashSize written base r (some k)

/-- The ring holds the messages from number `base` on, and every reader is at its place. -/
structure RingSys.Holds (trashSize : ℕ) (s : RingSys) (base : ℕ) (places : List (Option ℕ)) :
    Prop where
  inside : base ≤ s.written.length
  ofs : s.ring.ofs = recSpan (s.written.take base) % 2 ^ 64
  data : s.ring.data = ringBytes (ringCnt places) base (s.written.drop base)
  room : s.ring.data.length ≤ s.ring.size
  size : s.ring.size < 2 ^ 64
  count : s.ring.readersCount = s.readers.length
  users : s.readers.length ≤ 255
  placed : List.Forall₂ (RingPlaced trashSize s.written base) s.readers places

/-- **Rings of messages**: the buffer is a counter and the messages that are not
deleted, each with a counter behind it; each counter is the number of readers at its
place; no message behind a reader is deleted; and every reader got the messages from
its start up to its place, one after the other. -/
def RingSys.Good (trashSize : ℕ) (s : RingSys) : Prop := ∃ base places, s.Holds trashSize base places

/-! ### Counters -/

section Counters

variable {places : List (Option ℕ)} {i j k : ℕ}

theorem ringCnt_zero (hlen : places.length ≤ 255) (h : ringCnt places j = 0) :
    places.count (some j) = 0 := by
  have hle := List.count_le_length (a := some j) (l := places)
  have h' := congrArg UInt8.toNat h
  simp only [ringCnt, UInt8.toNat_ofNat', UInt8.toNat_zero] at h'
  omega

theorem ringCnt_set_some (hi : places[i]? = some none) :
    ringCnt (places.set i (some k)) k = ringCnt places k + 1 := by
  obtain ⟨hlt, hi⟩ := List.getElem?_eq_some_iff.mp hi
  rw [ringCnt, ringCnt, List.count_set hlt, hi]
  simp

theorem ringCnt_set_some_ne (hi : places[i]? = some none) (hj : j ≠ k) :
    ringCnt (places.set i (some k)) j = ringCnt places j := by
  obtain ⟨hlt, hi⟩ := List.getElem?_eq_some_iff.mp hi
  rw [ringCnt, ringCnt, List.count_set hlt, hi]
  simp [Ne.symm hj]

theorem set_none_some (hi : places[i]? = some (some k)) :
    (places.set i none)[i]? = some none ∧ (places.set i none).set i (some k) = places := by
  obtain ⟨hlt, hi⟩ := List.getElem?_eq_some_iff.mp hi
  constructor
  · rw [List.getElem?_set_self hlt]
  · rw [List.set_set, ← hi, List.set_getElem_self]

theorem ringCnt_set_none (hi : places[i]? = some (some k)) :
    ringCnt (places.set i none) k = ringCnt places k - 1 := by
  obtain ⟨hnone, hset⟩ := set_none_some hi
  have h := ringCnt_set_some (k := k) hnone
  rw [hset] at h
  rw [h, UInt8.add_sub_cancel]

theorem ringCnt_set_none_ne (hi : places[i]? = some (some k)) (hj : j ≠ k) :
    ringCnt (places.set i none) j = ringCnt places j := by
  obtain ⟨hnone, hset⟩ := set_none_some hi
  have h := ringCnt_set_some_ne hnone hj
  rwa [hset, eq_comm] at h

theorem ringCnt_append_none : ringCnt (places ++ [none]) = ringCnt places := by
  funext j
  simp [ringCnt]

theorem ringCnt_eraseIdx (hi : places[i]? = some none) :
    ringCnt (places.eraseIdx i) = ringCnt places := by
  funext j
  obtain ⟨hlt, hi⟩ := List.getElem?_eq_some_iff.mp hi
  have hsplit : places = places.take i ++ none :: places.drop (i + 1) := by
    rw [← hi, ← List.drop_eq_getElem_cons hlt, List.take_append_drop]
  rw [ringCnt, ringCnt, List.eraseIdx_eq_take_drop_succ]
  conv_rhs => rw [hsplit]
  simp

end Counters

/-! ### Writing -/

theorem ringParts_eq {maxlen : ℕ} {parts : List CStr} {totlen : ℕ} (h : totlen ≤ maxlen) :
    ringParts maxlen totlen parts = parts.flatten.take (maxlen - totlen) := by
  induction parts generalizing totlen with
  | nil => simp [ringParts]
  | cons p ps ih =>
    rw [ringParts]
    split_ifs with hlen
    · -- the limit is inside this part
      rw [ih (by omega), List.flatten_cons, List.take_append]
      have h1 : maxlen - (totlen + (maxlen - totlen)) = 0 := by omega
      have h2 : maxlen - totlen - p.length = 0 := by omega
      rw [h1, h2]
    · rw [ih (by omega), List.flatten_cons, List.take_append, List.take_length,
        List.take_of_length_le (l := p) (by omega)]
      have h1 : maxlen - (totlen + p.length) = maxlen - totlen - p.length := by omega
      rw [h1]

theorem length_ringParts {maxlen : ℕ} {parts : List CStr} :
    (parts.flatten.take maxlen).length = ringTotlen maxlen parts := by
  rw [List.length_take, List.length_flatten, ringTotlen, Nat.min_comm]

theorem varintBytesLoop_eq (v : ℕ) : varintBytesLoop v = (varintGroups v).length := by
  induction v using Nat.strong_induction_on with
  | _ v ih =>
    rw [varintBytesLoop, varintGroups]
    split_ifs with h1 h2
    · omega
    · rfl
    · have hlt : (v - 128) >>> 7 < v := by
        rw [Nat.shiftRight_eq_div_pow]
        omega
      rw [ih _ hlt, List.length_cons, Nat.add_comm]
    · omega

theorem varintBytes_eq (v : ℕ) : varintBytes v = (varint v).length := by
  rw [varintBytes, varint]
  split_ifs with h1 h2
  · omega
  · rw [varintBytesLoop_eq, List.length_cons, Nat.add_comm]
  · rfl
  · omega

/-- **Making room**: the oldest messages are deleted up to a counter that is not zero. -/
theorem ringMakeRoom_spec {cnt : ℕ → UInt8} (need fuel : ℕ) {ring : LogRing}
    {written : List CStr} {base : ℕ} (hbase : base ≤ written.length)
    (hofs : ring.ofs = recSpan (written.take base) % 2 ^ 64)
    (hdata : ring.data = ringBytes cnt base (written.drop base))
    (hroom : ring.data.length ≤ ring.size) (hsize : ring.size < 2 ^ 64)
    (hneed : need + 1 ≤ ring.size) (hfuel : ring.data.length < fuel) :
    ∃ ring' b base', ringMakeRoom need fuel ring = some (ring', b) ∧ base ≤ base' ∧
      base' ≤ written.length ∧ (∀ j, base ≤ j → j < base' → cnt j = 0) ∧
      ring'.ofs = recSpan (written.take base') % 2 ^ 64 ∧
      ring'.data = ringBytes cnt base' (written.drop base') ∧ ring'.size = ring.size ∧
      ring'.readersCount = ring.readersCount ∧ ring'.data.length ≤ ring.data.length ∧
      (b = true → need ≤ ring.size - ring'.data.length) := by
  induction fuel generalizing ring base with
  | zero => omega
  | succ fuel ih =>
    rw [ringMakeRoom]
    split_ifs with henough hhead
    · exact ⟨ring, true, base, rfl, Nat.le_refl _, hbase, fun j h1 h2 => by omega, hofs, hdata,
        rfl, rfl, Nat.le_refl _, fun _ => henough⟩
    · refine ⟨ring, false, base, rfl, Nat.le_refl _, hbase, fun j h1 h2 => by omega, hofs, hdata,
        rfl, rfl, Nat.le_refl _, fun hf => ?_⟩
      cases hf
    · -- the oldest message is deleted
      have hcnt : cnt base = 0 := by
        rw [hdata, headD_ringBytes] at hhead
        exact not_not.mp hhead
      rcases hdrop : written.drop base with - | ⟨m, ms⟩
      · have hlen : ring.data.length = 1 := by
          rw [hdata, hdrop]
          rfl
        omega
      · have hlt : base < written.length := by
          by_contra hge
          rw [List.drop_eq_nil_of_le (Nat.not_lt.mp hge)] at hdrop
          cases hdrop
        rw [List.drop_eq_getElem_cons hlt] at hdrop
        obtain ⟨hm, hms⟩ := List.cons.inj hdrop
        have hcons : ring.data = ringBytes cnt base (m :: ms) := by
          rw [hdata, List.drop_eq_getElem_cons hlt, hdrop]
        have hlen : ring.data.length = recSize m + recSpan ms + 1 := by
          rw [hcons, length_ringBytes, recSpan_cons]
        have hsz : recSize m = 1 + (varint m.length).length + m.length := rfl
        have hpeek : bPeekVarint ring.data 1 = some (m.length, (varint m.length).length) := by
          rw [hcons]
          exact bPeekVarint_ringBytes [] (by omega)
        have htake : recSpan (written.take (base + 1)) =
            recSpan (written.take base) + recSize m := by
          rw [List.take_succ_eq_append_getElem hlt, recSpan_append, hm, recSpan_cons,
            recSpan_nil, Nat.add_zero]
        simp only [hpeek]
        rw [if_neg (by omega), ← hsz]
        generalize hr₁ : ({ ring with
          data := ring.data.drop (recSize m)
          ofs := (ring.ofs + recSize m) % 2 ^ 64 } : LogRing) = ring₁
        have hofs₁ : ring₁.ofs = recSpan (written.take (base + 1)) % 2 ^ 64 := by
          rw [← hr₁, htake]
          show (ring.ofs + recSize m) % 2 ^ 64 = _
          rw [hofs, Nat.mod_add_mod]
        have hdata₁ : ring₁.data = ringBytes cnt (base + 1) (written.drop (base + 1)) := by
          rw [← hr₁, hms]
          show ring.data.drop (recSize m) = _
          rw [hcons, drop_ringBytes_cons]
        have hlen₁ : ring₁.data.length = ring.data.length - recSize m := by
          rw [← hr₁]
          exact List.length_drop
        have hsize₁ : ring₁.size = ring.size := by rw [← hr₁]
        have hcount₁ : ring₁.readersCount = ring.readersCount := by rw [← hr₁]
        obtain ⟨ring', b, base', hrun, h1, h2, hzero, ho, hd, hs, hc, hl, hb⟩ :=
          ih hlt hofs₁ hdata₁ (by omega) (by omega) (by omega) (by omega)
        refine ⟨ring', b, base', hrun, by omega, h2, fun j hj1 hj2 => ?_, ho, hd,
          hs.trans hsize₁, hc.trans hcount₁, by omega, fun hf => ?_⟩
        · rcases Nat.eq_or_lt_of_le hj1 with rfl | hj1
          · exact hcnt
          · exact hzero j hj1 hj2
        · have := hb hf
          omega

theorem forall₂_exists {α β : Type*} {R : α → β → Prop} {l : List α} {l' : List β}
    (h : List.Forall₂ R l l') {b : β} (hb : b ∈ l') : ∃ a ∈ l, R a b := by
  induction h with
  | nil => cases hb
  | cons hab _ ih =>
    rcases List.mem_cons.mp hb with rfl | hb
    · exact ⟨_, List.mem_cons_self, hab⟩
    · obtain ⟨a, ha, hr⟩ := ih hb
      exact ⟨a, List.mem_cons_of_mem _ ha, hr⟩

theorem forall₂_iff_getElem? {α β : Type*} {R : α → β → Prop} {l : List α} {l' : List β} :
    List.Forall₂ R l l' ↔
      l.length = l'.length ∧ ∀ (i : ℕ) a b, l[i]? = some a → l'[i]? = some b → R a b := by
  rw [List.forall₂_iff_get]
  refine and_congr_right fun _ => ⟨fun h i a b ha hb => ?_, fun h i h1 h2 => ?_⟩
  · obtain ⟨h1, rfl⟩ := List.getElem?_eq_some_iff.mp ha
    obtain ⟨h2, rfl⟩ := List.getElem?_eq_some_iff.mp hb
    exact h i h1 h2
  · exact h i _ _ (List.getElem?_eq_getElem h1) (List.getElem?_eq_getElem h2)

theorem forall₂_set {α β : Type*} {R : α → β → Prop} {l : List α} {l' : List β}
    (h : List.Forall₂ R l l') {a : α} {b : β} (hab : R a b) (i : ℕ) :
    List.Forall₂ R (l.set i a) (l'.set i b) := by
  induction h generalizing i with
  | nil => exact .nil
  | cons hr hrest ih =>
    cases i with
    | zero => exact .cons hab hrest
    | succ i => exact .cons hr (ih i)

theorem forall₂_eraseIdx {α β : Type*} {R : α → β → Prop} {l : List α} {l' : List β}
    (h : List.Forall₂ R l l') (i : ℕ) : List.Forall₂ R (l.eraseIdx i) (l'.eraseIdx i) := by
  induction h generalizing i with
  | nil => exact .nil
  | cons hr hrest ih =>
    cases i with
    | zero => exact hrest
    | succ i => exact .cons hr (ih i)

section Placed

variable {trashSize : ℕ} {written : List CStr} {base base' : ℕ} {r : RingReader} {m : CStr}
  {place : Option ℕ}

theorem RingPlaced.delete (h : RingPlaced trashSize written base r place)
    (hle : ∀ k, place = some k → base' ≤ k) : RingPlaced trashSize written base' r place := by
  cases h with
  | waiting hofs hfirst hgot => exact .waiting hofs hfirst hgot
  | reading hofs hfirst hstart hsk hbase hk hgot hfate =>
    exact .reading hofs hfirst hstart hsk (hle _ rfl) hk hgot hfate

theorem RingPlaced.append (h : RingPlaced trashSize written base r place) :
    RingPlaced trashSize (written ++ [m]) base r place := by
  cases h with
  | waiting hofs hfirst hgot => exact .waiting hofs hfirst hgot
  | reading hofs hfirst hstart hsk hbase hk hgot hfate =>
    refine .reading ?_ hfirst hstart hsk hbase ?_ ?_ hfate
    · rw [hofs, List.take_append_of_le_length hk]
    · rw [List.length_append]
      omega
    · rw [hgot, List.drop_append_of_le_length (by omega), List.take_append_of_le_length]
      rw [List.length_drop]
      omega

end Placed

namespace RingSys.Holds

variable {trashSize : ℕ} {s : RingSys} {base : ℕ} {places : List (Option ℕ)}

theorem length_places (h : s.Holds trashSize base places) : places.length ≤ 255 := by
  rw [← h.placed.length_eq]
  exact h.users

theorem place_bounds (h : s.Holds trashSize base places) {k : ℕ} (hk : some k ∈ places) :
    base ≤ k ∧ k ≤ s.written.length := by
  obtain ⟨r, -, hr⟩ := forall₂_exists h.placed hk
  cases hr with
  | reading _ _ _ _ hbase hk _ _ => exact ⟨hbase, hk⟩

theorem ringCnt_behind (h : s.Holds trashSize base places) {j : ℕ} (hj : s.written.length < j) :
    ringCnt places j = 0 := by
  have hnot : some j ∉ places := fun hm => by
    have := (h.place_bounds hm).2
    omega
  rw [ringCnt, List.count_eq_zero.mpr hnot]
  rfl

/-- **Writing** keeps the state, and nobody is before what is left. -/
theorem write (h : s.Holds trashSize base places) (maxlen : ℕ) (pfx msg : List CStr) :
    ∃ s', s.step trashSize (.write maxlen pfx msg) = .ok s' ∧ s'.Good trashSize := by
  simp only [RingSys.step, ringWrite]
  split_ifs with hfit
  · exact ⟨s, rfl, base, places, h⟩
  · obtain ⟨ring, b, base', hrun, h1, h2, hzero, ho, hd, hs, hc, hl, hb⟩ :=
      ringMakeRoom_spec (varintBytes (ringTotlen maxlen (pfx ++ msg)) +
        ringTotlen maxlen (pfx ++ msg) + 1) (s.ring.data.length + 1) h.inside h.ofs h.data
        h.room h.size (by omega) (Nat.lt_succ_self _)
    have hplaces : ∀ k, some k ∈ places → base' ≤ k := by
      intro k hk
      by_contra hlt
      have hcnt := ringCnt_zero h.length_places
        (hzero k (h.place_bounds hk).1 (Nat.not_le.mp hlt))
      exact List.count_eq_zero.mp hcnt hk
    have hplaced : List.Forall₂ (RingPlaced trashSize s.written base') s.readers places := by
      rw [forall₂_iff_getElem?]
      refine ⟨h.placed.length_eq, fun i r place hr hp => ?_⟩
      apply ((forall₂_iff_getElem?.mp h.placed).2 i r place hr hp).delete
      rintro k rfl
      exact hplaces k (List.mem_of_getElem? hp)
    have hsize := h.size
    have hroom := h.room
    rw [hrun]
    cases b with
    | false =>
      -- a reader stands in the way of the message
      exact ⟨_, rfl, base', places, h2, ho, hd, by show ring.data.length ≤ ring.size; omega,
        by show ring.size < 2 ^ 64; omega, hc.trans h.count, h.users, hplaced⟩
    | true =>
      have hneed := hb rfl
      generalize hm : (pfx ++ msg).flatten.take maxlen = m
      have hlen : ringTotlen maxlen (pfx ++ msg) = m.length := by
        rw [← hm, length_ringParts]
      have hparts : ringParts maxlen 0 (pfx ++ msg) = m := by
        rw [ringParts_eq (Nat.zero_le _), Nat.sub_zero, hm]
      have hbytes := varintBytes_eq m.length
      rw [hlen] at hneed hfit
      simp only [hlen, hparts]
      have hdrop : (s.written ++ [m]).drop base' = s.written.drop base' ++ [m] :=
        List.drop_append_of_le_length h2
      have hdata : ring.data ++ varint m.length ++ m ++ [0] =
          ringBytes (ringCnt places) base' ((s.written ++ [m]).drop base') := by
        rw [hdrop, hd]
        apply ringBytes_concat
        apply h.ringCnt_behind
        rw [List.length_drop]
        omega
      refine ⟨_, rfl, base', places, ?_, ?_, ?_, ?_, ?_, hc.trans h.count, h.users, ?_⟩
      · show base' ≤ (s.written ++ [m]).length
        rw [List.length_append]
        omega
      · show ring.ofs = recSpan ((s.written ++ [m]).take base') % 2 ^ 64
        rw [ho, List.take_append_of_le_length h2]
      · exact hdata
      · show (ring.data ++ varint m.length ++ m ++ [0]).length ≤ ring.size
        simp only [List.length_append, List.length_singleton]
        omega
      · show ring.size < 2 ^ 64
        omega
      · show List.Forall₂ (RingPlaced trashSize (s.written ++ [m]) base') s.readers places
        exact hplaced.imp fun r place hr => hr.append

/-- **Attaching** a reader. -/
theorem attach (h : s.Holds trashSize base places) (seek : Bool) :
    ∃ s', s.step trashSize (.attach seek) = .ok s' ∧ s'.Good trashSize := by
  simp only [RingSys.step, ringAttach]
  split_ifs with hfull
  · exact ⟨s, rfl, base, places, h⟩
  · have hcount := h.count
    refine ⟨_, rfl, base, places ++ [none], h.inside, h.ofs, ?_, h.room, h.size, ?_, ?_, ?_⟩
    · rw [ringCnt_append_none]
      exact h.data
    · show s.ring.readersCount + 1 = (s.readers ++ [_]).length
      rw [hcount, List.length_append, List.length_singleton]
    · show (s.readers ++ [_]).length ≤ 255
      rw [List.length_append, List.length_singleton]
      omega
    · exact List.rel_append h.placed (.cons (.waiting rfl rfl rfl) .nil)

/-- **Resizing** changes nothing but the size. -/
theorem resize (h : s.Holds trashSize base places) (size : UInt64) :
    ∃ s', s.step trashSize (.resize size) = .ok s' ∧ s'.Good trashSize := by
  have hroom := h.room
  have hlt : size.toNat < 2 ^ 64 := size.toNat_lt
  simp only [RingSys.step, ringResize]
  split_ifs with hle
  · exact ⟨_, rfl, base, places, h⟩
  · refine ⟨_, rfl, base, places, h.inside, h.ofs, h.data, ?_, hlt, h.count, h.users, h.placed⟩
    show s.ring.data.length ≤ size.toNat
    omega

end RingSys.Holds

/-! ### Reading -/

/-- **The reading loop** passes some of the messages behind the counter at `pre.length`,
one after the other. -/
theorem ringReadLoop_spec (trashSize : ℕ) (put : ℕ → PutRet) (cnt : ℕ → UInt8) {ms : List CStr}
    (hsmall : ∀ m ∈ ms, m.length < 2 ^ 64) {fuel : ℕ} (hfuel : ms.length < fuel) (i k : ℕ)
    (pre : CStr) :
    ∃ done rest msgs ret,
      ringReadLoop trashSize put (pre ++ ringBytes cnt k ms) fuel i pre.length =
        some (pre.length + recSpan done, msgs, ret) ∧
      ms = done ++ rest ∧ msgs.map Prod.fst = done ∧
      (∀ e ∈ msgs, e.2 = .tooLarge ↔ trashSize < e.1.length + 1) ∧ (ret = true → rest = []) := by
  induction ms generalizing fuel i k pre with
  | nil =>
    rcases fuel with - | fuel
    · cases hfuel
    · refine ⟨[], [], [], true, ?_, rfl, rfl, by simp, fun _ => rfl⟩
      rw [ringReadLoop, if_pos]
      · rfl
      · rw [List.length_append, length_ringBytes]
        exact Nat.le_refl _
  | cons m ms ih =>
    rcases fuel with - | fuel
    · cases hfuel
    · have hm := hsmall m List.mem_cons_self
      have hms : ∀ m ∈ ms, m.length < 2 ^ 64 := fun m hm => hsmall m (List.mem_cons_of_mem _ hm)
      have hlen : (pre ++ ringBytes cnt k (m :: ms)).length =
          pre.length + (recSize m + recSpan ms + 1) := by
        rw [List.length_append, length_ringBytes, recSpan_cons]
      have hsz : recSize m = 1 + (varint m.length).length + m.length := rfl
      -- the rest of the loop, behind this message
      have hpre : pre ++ ringBytes cnt k (m :: ms) =
          (pre ++ cnt k :: (varint m.length ++ m)) ++ ringBytes cnt (k + 1) ms := by
        rw [ringBytes_cons]
        simp
      have hofs : pre.length + (1 + (varint m.length).length) + m.length =
          (pre ++ cnt k :: (varint m.length ++ m)).length := by
        simp only [List.length_append, List.length_cons]
        omega
      have hrest : ∀ j, ∃ done rest msgs ret,
          ringReadLoop trashSize put (pre ++ ringBytes cnt k (m :: ms)) fuel j
              (pre.length + (1 + (varint m.length).length) + m.length) =
            some (pre.length + recSize m + recSpan done, msgs, ret) ∧
          ms = done ++ rest ∧ msgs.map Prod.fst = done ∧
          (∀ e ∈ msgs, e.2 = .tooLarge ↔ trashSize < e.1.length + 1) ∧
          (ret = true → rest = []) := by
        intro j
        rw [hpre, hofs]
        obtain ⟨done, rest, msgs, ret, hrun, h⟩ := ih hms (Nat.lt_of_succ_lt_succ hfuel) j (k + 1)
          (pre ++ cnt k :: (varint m.length ++ m))
        refine ⟨done, rest, msgs, ret, ?_, h⟩
        rw [hrun, ← hofs, hsz]
        congr 3
        omega
      rw [ringReadLoop, if_neg (by omega), bPeekVarint_ringBytes _ hm]
      dsimp only
      rw [if_neg (by omega), take_ringBytes]
      -- a message that is passed, with what becomes of it
      have hnext : ∀ j fate, (fate = .tooLarge ↔ trashSize < m.length + 1) →
          ∃ done rest msgs ret,
            (ringReadLoop trashSize put (pre ++ ringBytes cnt k (m :: ms)) fuel j
                (pre.length + (1 + (varint m.length).length) + m.length)).map
              (fun r => (r.1, (m, fate) :: r.2.1, r.2.2)) =
              some (pre.length + recSpan done, msgs, ret) ∧
            m :: ms = done ++ rest ∧ msgs.map Prod.fst = done ∧
            (∀ e ∈ msgs, e.2 = .tooLarge ↔ trashSize < e.1.length + 1) ∧
            (ret = true → rest = []) := by
        intro j fate hfate
        obtain ⟨done, rest, msgs, ret, hrun, hms, hfst, hall, hret⟩ := hrest j
        refine ⟨m :: done, rest, (m, fate) :: msgs, ret, ?_, ?_, ?_, ?_, hret⟩
        · rw [hrun, Option.map_some, recSpan_cons, Nat.add_assoc]
        · rw [hms, List.cons_append]
        · rw [List.map_cons, hfst]
        · intro e he
          rcases List.mem_cons.mp he with rfl | he
          · exact hfate
          · exact hall e he
      split_ifs with hlarge
      · exact hnext i .tooLarge ⟨fun _ => hlarge, fun _ => rfl⟩
      · rcases put i
        · exact hnext (i + 1) .sent ⟨nofun, fun hf => absurd hf hlarge⟩
        · -- no room now: the loop stops before the message
          exact ⟨[], m :: ms, [], false, rfl, rfl, rfl, by simp, nofun⟩
        · exact hnext (i + 1) .refused ⟨nofun, fun hf => absurd hf hlarge⟩

namespace RingSys.Holds

variable {trashSize : ℕ} {s : RingSys} {base : ℕ} {places : List (Option ℕ)}

theorem ofs_place (h : s.Holds trashSize base places) {k : ℕ} (hbase : base ≤ k)
    (hk : k ≤ s.written.length) :
    ∃ past rest, s.written.drop base = past ++ rest ∧ base + past.length = k ∧
      rest = s.written.drop k ∧ recSpan past < s.ring.size ∧
      recSpan (s.written.take k) = recSpan (s.written.take base) + recSpan past := by
  have hsplit : s.written.drop base = (s.written.drop base).take (k - base) ++ s.written.drop k := by
    have hdrop : s.written.drop k = (s.written.drop base).drop (k - base) := by
      rw [List.drop_drop, Nat.add_sub_cancel' hbase]
    rw [hdrop, List.take_append_drop]
  have htake : s.written.take k =
      s.written.take base ++ (s.written.drop base).take (k - base) := by
    rw [← List.take_add, Nat.add_sub_cancel' hbase]
  refine ⟨_, _, hsplit, ?_, rfl, ?_, ?_⟩
  · rw [List.length_take, List.length_drop]
    omega
  · have hroom := h.room
    have hlen := congrArg List.length h.data
    rw [length_ringBytes, hsplit, recSpan_append] at hlen
    omega
  · rw [htake, recSpan_append]

theorem ringRelOfs_place (h : s.Holds trashSize base places) {past : List CStr}
    (hlt : recSpan past < s.ring.size) :
    ringRelOfs s.ring ((recSpan (s.written.take base) + recSpan past) % 2 ^ 64) =
      recSpan past := by
  have hsize := h.size
  rw [ringRelOfs, h.ofs]
  generalize recSpan (s.written.take base) = a
  omega

theorem inc_place {i k : ℕ} {past rest : List CStr} (hi : places[i]? = some none)
    (hk : base + past.length = k) :
    ringInc (ringBytes (ringCnt places) base (past ++ rest)) (recSpan past) =
      ringBytes (ringCnt (places.set i (some k))) base (past ++ rest) :=
  modify_ringBytes hk (ringCnt_set_some hi) fun _ hj => ringCnt_set_some_ne hi hj

theorem dec_place {i k : ℕ} {past rest : List CStr} (hi : places[i]? = some (some k))
    (hk : base + past.length = k) :
    ringDec (ringBytes (ringCnt places) base (past ++ rest)) (recSpan past) =
      ringBytes (ringCnt (places.set i none)) base (past ++ rest) :=
  modify_ringBytes hk (ringCnt_set_none hi) fun _ hj => ringCnt_set_none_ne hi hj

/-- Where the reading loop of a reader starts: its place is given up. -/
theorem readStart (h : s.Holds trashSize base places) {i : ℕ} {r : RingReader}
    {place : Option ℕ} (hp : places[i]? = some place)
    (hplaced : RingPlaced trashSize s.written base r place)
    (hclash : r.first ≠ none → r.o0 ≠ ringNoOfs) :
    ∃ k start past rest, base + past.length = k ∧ k ≤ s.written.length ∧
      s.written.drop base = past ++ rest ∧ rest = s.written.drop k ∧ recSpan past < s.ring.size ∧
      recSpan (s.written.take k) = recSpan (s.written.take base) + recSpan past ∧
      start ≤ r.first.getD s.written.length ∧ start ≤ k ∧
      r.got.map Prod.fst = (s.written.drop start).take (k - start) ∧
      (∀ e ∈ r.got, e.2 = .tooLarge ↔ trashSize < e.1.length + 1) ∧
      ringReadStart r.seek s.ring r.o0 = some
        ({ s.ring with
          data := ringBytes (ringCnt (places.set i none)) base (s.written.drop base) },
          recSpan past) := by
  cases hplaced with
  | waiting hofs hfirst hgot =>
    -- the place that a first read takes and gives up again
    have hstart : ∀ k, base ≤ k → k ≤ s.written.length →
        (∀ past rest, s.written.drop base = past ++ rest → base + past.length = k →
          (if r.seek then s.ring.data.length - 1 else 0) = recSpan past) →
        ∃ past rest, base + past.length = k ∧ s.written.drop base = past ++ rest ∧
          rest = s.written.drop k ∧ recSpan past < s.ring.size ∧
          recSpan (s.written.take k) = recSpan (s.written.take base) + recSpan past ∧
          ringReadStart r.seek s.ring r.o0 = some
            ({ s.ring with
              data := ringBytes (ringCnt (places.set i none)) base (s.written.drop base) },
              recSpan past) := by
      intro k hbase hk hseek
      obtain ⟨past, rest, hsplit, hlen, hrest, hlt, hspan⟩ := h.ofs_place hbase hk
      obtain ⟨hi, -⟩ := List.getElem?_eq_some_iff.mp hp
      have hset : (places.set i (some k))[i]? = some (some k) := List.getElem?_set_self hi
      have hrel : ∀ data, ringRelOfs { s.ring with data := data }
          ((recSpan past + s.ring.ofs) % 2 ^ 64) = recSpan past := by
        intro data
        rw [← h.ringRelOfs_place hlt, ringRelOfs, ringRelOfs, h.ofs]
        congr 3
        generalize recSpan (s.written.take base) = a
        omega
      refine ⟨past, rest, hlen, hsplit, hrest, hlt, hspan, ?_⟩
      rw [ringReadStart, if_pos hofs, hseek past rest hsplit hlen]
      dsimp only
      rw [hrel, if_neg (Nat.not_le.mpr hlt), h.data, hsplit, inc_place hp hlen,
        dec_place hset hlen, List.set_set]
    have hfate : ∀ e ∈ r.got, e.2 = .tooLarge ↔ trashSize < e.1.length + 1 := by
      rw [hgot]
      nofun
    have hdata : s.ring.data.length - 1 = recSpan (s.written.drop base) := by
      rw [h.data, length_ringBytes, Nat.add_sub_cancel]
    rcases hseek : r.seek with - | -
    · obtain ⟨past, rest, hlen, hsplit, hrest, hlt, hspan, hrun⟩ :=
        hstart base (Nat.le_refl _) h.inside fun past rest _ hlen => by
          rw [hseek, List.length_eq_zero_iff.mp (by omega : past.length = 0)]
          rfl
      refine ⟨base, base, past, rest, hlen, h.inside, hsplit, hrest, hlt, hspan, ?_,
        Nat.le_refl _, ?_, hfate, hseek ▸ hrun⟩
      · rw [hfirst]
        exact h.inside
      · rw [hgot, Nat.sub_self]
        rfl
    · obtain ⟨past, rest, hlen, hsplit, hrest, hlt, hspan, hrun⟩ :=
        hstart s.written.length h.inside (Nat.le_refl _) fun past rest hsplit hlen => by
          have hnil : rest = [] := by
            have := congrArg List.length hsplit
            rw [List.length_drop, List.length_append] at this
            exact List.length_eq_zero_iff.mp (by omega)
          rw [hseek, if_pos rfl, hdata, hsplit, hnil, List.append_nil]
      refine ⟨s.written.length, s.written.length, past, rest, hlen, Nat.le_refl _, hsplit, hrest,
        hlt, hspan, ?_, Nat.le_refl _, ?_, hfate, hseek ▸ hrun⟩
      · rw [hfirst]
        exact Nat.le_refl _
      · rw [hgot, Nat.sub_self]
        rfl
  | reading hofs hfirst hstart hle hbase hk hgot hfate =>
    obtain ⟨past, rest, hsplit, hlen, hrest, hlt, hspan⟩ := h.ofs_place hbase hk
    refine ⟨_, _, past, rest, hlen, hk, hsplit, hrest, hlt, hspan, ?_, hle, hgot, hfate, ?_⟩
    · rwa [hfirst]
    · have hno : r.o0 ≠ ringNoOfs := hclash (by rw [hfirst]; nofun)
      have hrel : ringRelOfs s.ring r.o0 = recSpan past := by
        rw [hofs, hspan, h.ringRelOfs_place hlt]
      rw [ringReadStart, if_neg hno]
      dsimp only
      rw [hrel, if_neg (Nat.not_le.mpr hlt), h.data, hsplit, dec_place hp hlen]

theorem place_at (h : s.Holds trashSize base places) {i : ℕ} {r : RingReader}
    (hr : s.readers[i]? = some r) :
    ∃ place, places[i]? = some place ∧ RingPlaced trashSize s.written base r place := by
  obtain ⟨hlen, hall⟩ := forall₂_iff_getElem?.mp h.placed
  obtain ⟨hi, -⟩ := List.getElem?_eq_some_iff.mp hr
  have hp : places[i]? = some (places.get ⟨i, hlen ▸ hi⟩) := List.getElem?_eq_getElem _
  exact ⟨_, hp, hall i r _ hr hp⟩

theorem length_le_recSpan (ms : List CStr) : ms.length ≤ recSpan ms := by
  induction ms with
  | nil => exact Nat.le_refl _
  | cons m ms ih =>
    rw [List.length_cons, recSpan_cons, recSize]
    omega

theorem le_recSpan {m : CStr} {ms : List CStr} (hm : m ∈ ms) : m.length ≤ recSpan ms := by
  obtain ⟨a, b, rfl⟩ := List.append_of_mem hm
  rw [recSpan_append, recSpan_cons, recSize]
  omega

/-- **Reading** keeps the state: the reader got the messages that it passed, up to its
new place. -/
theorem read (h : s.Holds trashSize base places) (i : ℕ) (put : ℕ → PutRet)
    (hclash : ∀ r ∈ s.readers, r.first ≠ none → r.o0 ≠ ringNoOfs) :
    ∃ s', s.step trashSize (.read i put) = .ok s' ∧ s'.Good trashSize := by
  rcases hr : s.readers[i]? with - | r
  · refine ⟨s, ?_, base, places, h⟩
    simp only [RingSys.step, hr]
  · obtain ⟨place, hp, hplaced⟩ := h.place_at hr
    obtain ⟨k, start, past, rest, hlen, hk, hsplit, hrest, hlt, hspan, hfirst, hle, hgot, hfate,
      hrun⟩ := h.readStart hp hplaced (hclash r (List.mem_of_getElem? hr))
    have hsize := h.size
    have hroom := h.room
    have hdata := congrArg List.length h.data
    rw [length_ringBytes, hsplit, recSpan_append] at hdata
    -- the loop behind the place
    have hpre : ringBytes (ringCnt (places.set i none)) base (past ++ rest) =
        recBody (ringCnt (places.set i none)) base past ++
          ringBytes (ringCnt (places.set i none)) k rest := by
      rw [ringBytes_append, hlen]
    have hprelen : (recBody (ringCnt (places.set i none)) base past).length = recSpan past :=
      length_recBody
    have hsmall : ∀ m ∈ rest, m.length < 2 ^ 64 := by
      intro m hm
      have := le_recSpan hm
      omega
    have hfuel : rest.length <
        (ringBytes (ringCnt (places.set i none)) base (past ++ rest)).length + 1 := by
      have := length_le_recSpan rest
      rw [length_ringBytes, recSpan_append]
      omega
    obtain ⟨done, rest', msgs, ret, hloop, hdone, hmsgs, hfates, -⟩ :=
      ringReadLoop_spec trashSize put (ringCnt (places.set i none)) hsmall hfuel 0 k
        (recBody (ringCnt (places.set i none)) base past)
    rw [← hpre, hprelen] at hloop
    -- the reader is counted at its new place
    obtain ⟨hi, -⟩ := List.getElem?_eq_some_iff.mp hp
    have hnone : (places.set i none)[i]? = some none := List.getElem?_set_self hi
    have hassoc : past ++ rest = (past ++ done) ++ rest' := by rw [hdone, List.append_assoc]
    have hplace : base + (past ++ done).length = k + done.length := by
      rw [List.length_append]
      omega
    have hinc : ringInc (ringBytes (ringCnt (places.set i none)) base (past ++ rest))
        (recSpan past + recSpan done) =
        ringBytes (ringCnt (places.set i (some (k + done.length)))) base (past ++ rest) := by
      rw [hassoc, ← recSpan_append, inc_place hnone hplace, List.set_set]
    have hshow : cliIoHandlerShowRing trashSize put r.seek s.ring r.o0 =
        some ({ s.ring with
          data := ringBytes (ringCnt (places.set i (some (k + done.length)))) base
            (s.written.drop base) },
          (recSpan past + recSpan done + s.ring.ofs) % 2 ^ 64, msgs, ret) := by
      rw [cliIoHandlerShowRing, hrun]
      dsimp only
      rw [hsplit, hloop]
      dsimp only
      rw [hinc]
    simp only [RingSys.step, hr, hshow]
    refine ⟨_, rfl, base, places.set i (some (k + done.length)), h.inside, h.ofs, rfl, ?_, hsize,
      ?_, ?_, ?_⟩
    · show (ringBytes _ base (s.written.drop base)).length ≤ s.ring.size
      rw [length_ringBytes, hsplit, recSpan_append]
      omega
    · show s.ring.readersCount = (s.readers.set i _).length
      rw [List.length_set, h.count]
    · show (s.readers.set i _).length ≤ 255
      rw [List.length_set]
      exact h.users
    · have htake : s.written.take (k + done.length) = s.written.take k ++ done := by
        rw [List.take_add, ← hrest, hdone, List.take_left]
      have hbound : k + done.length ≤ s.written.length := by
        have := congrArg List.length hrest
        rw [hdone, List.length_append, List.length_drop] at this
        omega
      refine forall₂_set h.placed (.reading ?_ rfl hfirst (by omega) (by omega) hbound ?_ ?_) i
      · show (recSpan past + recSpan done + s.ring.ofs) % 2 ^ 64 = _
        rw [htake, recSpan_append, hspan, h.ofs, Nat.add_mod_mod]
        congr 1
        omega
      · -- the messages up to the old place, then those of this call
        have hcut : k + done.length - start = (k - start) + done.length := by omega
        have hdrop : (s.written.drop start).drop (k - start) = s.written.drop k := by
          rw [List.drop_drop, Nat.add_sub_cancel' hle]
        show (r.got ++ msgs).map Prod.fst = _
        rw [List.map_append, hgot, hmsgs, hcut, List.take_add, hdrop, ← hrest, hdone,
          List.take_left]
      · intro e he
        rcases List.mem_append.mp he with he | he
        · exact hfate e he
        · exact hfates e he

/-- **Detaching** a reader. -/
theorem detach (h : s.Holds trashSize base places) (i : ℕ)
    (hclash : ∀ r ∈ s.readers, r.first ≠ none → r.o0 ≠ ringNoOfs) :
    ∃ s', s.step trashSize (.detach i) = .ok s' ∧ s'.Good trashSize := by
  rcases hr : s.readers[i]? with - | r
  · refine ⟨s, ?_, base, places, h⟩
    simp only [RingSys.step, hr]
  · obtain ⟨place, hp, hplaced⟩ := h.place_at hr
    obtain ⟨hi, -⟩ := List.getElem?_eq_some_iff.mp hr
    have hcount : s.ring.readersCount - 1 = (s.readers.eraseIdx i).length := by
      rw [h.count, List.length_eraseIdx_of_lt hi]
    have husers : (s.readers.eraseIdx i).length ≤ 255 := by
      have := h.users
      rw [List.length_eraseIdx_of_lt hi]
      omega
    have herase : ∀ data, data = ringBytes (ringCnt (places.eraseIdx i)) base
          (s.written.drop base) → data.length = s.ring.data.length →
        RingSys.Good trashSize { s with
          ring := { s.ring with data := data, readersCount := s.ring.readersCount - 1 }
          readers := s.readers.eraseIdx i } := fun data hdata hlen =>
      ⟨base, places.eraseIdx i, h.inside, h.ofs, hdata, hlen ▸ h.room, h.size, hcount, husers,
        forall₂_eraseIdx h.placed i⟩
    have hpi : i < places.length := by
      rw [← h.placed.length_eq]
      exact hi
    cases hplaced with
    | waiting hofs hfirst hgot =>
      simp only [RingSys.step, hr, ringDetach, hofs, if_true]
      exact ⟨_, rfl, herase s.ring.data (by rw [ringCnt_eraseIdx hp]; exact h.data) rfl⟩
    | reading hofs hfirst hstart hle hbase hk hgot hfate =>
      obtain ⟨past, rest, hsplit, hlen, -, hlt, hspan⟩ := h.ofs_place hbase hk
      have hno : r.o0 ≠ ringNoOfs := hclash r (List.mem_of_getElem? hr) (by rw [hfirst]; nofun)
      have hrel : ringRelOfs s.ring r.o0 = recSpan past := by
        rw [hofs, hspan, h.ringRelOfs_place hlt]
      simp only [RingSys.step, hr, ringDetach, if_neg hno, hrel,
        if_neg (Nat.not_le.mpr hlt)]
      refine ⟨_, rfl, herase _ ?_ (List.length_modify _ _ _)⟩
      have hset : (places.set i none)[i]? = some none := List.getElem?_set_self hpi
      have hcnt := ringCnt_eraseIdx hset
      rw [List.eraseIdx_set_eq] at hcnt
      rw [h.data, hcnt, hsplit, dec_place hp hlen]

end RingSys.Holds

/-! ### Runs -/

/-- No reader that has read is at the offset of one that has not. -/
def RingSys.NoClash (s : RingSys) : Prop :=
  ∀ r ∈ s.readers, r.first ≠ none → r.o0 ≠ ringNoOfs

instance RingSys.decidableNoClash (s : RingSys) : Decidable s.NoClash :=
  inferInstanceAs (Decidable (∀ r ∈ s.readers, r.first ≠ none → r.o0 ≠ ringNoOfs))

theorem RingSys.init_good {trashSize size : ℕ} (h2 : 2 ≤ size) (h64 : size < 2 ^ 64) :
    (RingSys.init size).Good trashSize :=
  ⟨0, [], Nat.le_refl _, rfl, rfl, by show 1 ≤ size; omega, h64, rfl, Nat.zero_le _, .nil⟩

theorem RingSys.step_good {trashSize : ℕ} (s : RingSys) (op : RingOp) (h : s.Good trashSize)
    (hclash : s.NoClash) : ∃ t, s.step trashSize op = .ok t ∧ t.Good trashSize := by
  obtain ⟨base, places, h⟩ := h
  cases op with
  | write maxlen pfx msg => exact h.write maxlen pfx msg
  | attach seek => exact h.attach seek
  | read i put => exact h.read i put hclash
  | resize size => exact h.resize size
  | detach i => exact h.detach i hclash

/-- **Rings of messages**: in every run of a new ring, as long as no reader that has read
stands at the offset of one that has not, no `BUG_ON` fires, the content is well formed,
the counters are right, nothing is deleted behind a reader, and every reader gets the
messages one after the other. -/
theorem ring_runs {trashSize size : ℕ} (h2 : 2 ≤ size) (h64 : size < 2 ^ 64) {ops : List RingOp}
    (hmeet : StepsMeet (RingSys.step trashSize) (fun s _ => s.NoClash) (RingSys.init size) ops) :
    ∃ s, ops.foldlM (RingSys.step trashSize) (RingSys.init size) = .ok s ∧ s.Good trashSize :=
  foldlM_safe RingSys.step_good (RingSys.init_good h2 h64) hmeet

/-- A reader that gets the oldest message. -/
theorem ring_runs_sample :
    ∃ s, [RingOp.write 8 [] [[97, 98]], .attach false, .read 0 fun _ => .sent].foldlM
      (RingSys.step 16) (RingSys.init 16) = .ok s ∧ s.Good 16 := by
  refine ring_runs (by decide) (by decide) (stepsMeet_cons (by decide) fun s hs => ?_)
  cases hs
  refine stepsMeet_cons (by decide) fun s hs => ?_
  cases hs
  refine stepsMeet_cons (by decide) fun s hs => ?_
  exact stepsMeet_nil _ _ _

/-! ### Messages that are refused, and the offset of a reader that has not read -/

theorem foldlM_write_four (trashSize n : ℕ) :
    (List.replicate (n + 1) (RingOp.write 8 [] [[97]])).foldlM (RingSys.step trashSize)
      (RingSys.init 4) =
      .ok ⟨⟨4, [0, 1, 97, 0], 3 * n % 2 ^ 64, 0⟩, [], List.replicate (n + 1) [97]⟩ := by
  induction n with
  | zero => rfl
  | succ n ih =>
    rw [List.replicate_succ', foldlM_concat_eq_ok]
    refine ⟨_, ih, ?_⟩
    -- the oldest message makes room for the new one
    have hwrite : ∀ ofs, ringWrite ⟨4, [0, 1, 97, 0], ofs, 0⟩ 8 [] [[97]] =
        some (⟨4, [0, 1, 97, 0], (ofs + 3) % 2 ^ 64, 0⟩, 3) := fun ofs => rfl
    have hofs : (3 * n % 2 ^ 64 + 3) % 2 ^ 64 = 3 * (n + 1) % 2 ^ 64 := by
      rw [Nat.mod_add_mod, Nat.mul_succ]
    rw [RingSys.step, hwrite, hofs, List.replicate_succ' (n := n + 1)]
    rfl

theorem step_read_none {trashSize : ℕ} {put : ℕ → PutRet} {seek : Bool} {ring ring' : LogRing}
    {o0 o0' : ℕ} {written : List CStr}
    (h : cliIoHandlerShowRing trashSize put seek ring o0 = some (ring', o0', [], true)) :
    RingSys.step trashSize ⟨ring, [⟨o0, seek, none, []⟩], written⟩ (.read 0 put) =
      .ok ⟨ring', [⟨o0', seek, some written.length, []⟩], written⟩ := by
  simp only [RingSys.step, List.getElem?_cons_zero, h]
  rfl

theorem step_detach_none {trashSize size ofs count : ℕ} {data : CStr} {seek : Bool}
    {first : Option ℕ} {written : List CStr} :
    RingSys.step trashSize ⟨⟨size, data, ofs, count + 1⟩, [⟨ringNoOfs, seek, first, []⟩], written⟩
      (.detach 0) = .ok ⟨⟨size, data, ofs, count⟩, [], written⟩ := by
  simp only [RingSys.step, List.getElem?_cons_zero, ringDetach, if_true]
  rfl

theorem cliIoHandlerShowRing_four {ofs : ℕ} {put : ℕ → PutRet} (hofs : ofs + 4 = 2 ^ 64) :
    cliIoHandlerShowRing 16 put true ⟨4, [0, 1, 97, 0], ofs, 1⟩ ringNoOfs =
      some (⟨4, [0, 1, 97, 1], ofs, 1⟩, ringNoOfs, [], true) := by
  have hno : (3 + ofs) % 2 ^ 64 = ringNoOfs := by
    rw [ringNoOfs]
    omega
  have hrel : ∀ data, ringRelOfs ⟨4, data, ofs, 1⟩ ringNoOfs = 3 := by
    intro data
    show (ringNoOfs + 2 ^ 64 - ofs) % 2 ^ 64 = 3
    rw [ringNoOfs]
    omega
  have hstart : ringReadStart true ⟨4, [0, 1, 97, 0], ofs, 1⟩ ringNoOfs =
      some (⟨4, [0, 1, 97, 0], ofs, 1⟩, 3) := by
    simp only [ringReadStart, if_true, List.length_cons, List.length_nil, hno, hrel]
    rfl
  have hloop : ringReadLoop 16 put [0, 1, 97, 0] 5 0 3 = some (3, [], true) := rfl
  rw [cliIoHandlerShowRing, hstart]
  simp only [List.length_cons, List.length_nil, hloop, hno]
  rfl

theorem foldlM_clash {ofs : ℕ} (hofs : ofs + 4 = 2 ^ 64) (put : ℕ → PutRet)
    (written : List CStr) :
    [RingOp.attach true, .read 0 put, .detach 0].foldlM (RingSys.step 16)
      ⟨⟨4, [0, 1, 97, 0], ofs, 0⟩, [], written⟩ =
      .ok ⟨⟨4, [0, 1, 97, 1], ofs, 0⟩, [], written⟩ := by
  have hattach : RingSys.step 16 ⟨⟨4, [0, 1, 97, 0], ofs, 0⟩, [], written⟩ (.attach true) =
      .ok ⟨⟨4, [0, 1, 97, 0], ofs, 1⟩, [⟨ringNoOfs, true, none, []⟩], written⟩ := rfl
  rw [List.foldlM_cons, bind_eq_ok_iff]
  refine ⟨_, hattach, ?_⟩
  rw [List.foldlM_cons, bind_eq_ok_iff]
  refine ⟨_, step_read_none (cliIoHandlerShowRing_four hofs), ?_⟩
  rw [List.foldlM_cons, bind_eq_ok_iff]
  exact ⟨_, step_detach_none, rfl⟩

theorem not_good_clash {ofs : ℕ} {written : List CStr} :
    ¬ RingSys.Good 16 ⟨⟨4, [0, 1, 97, 1], ofs, 0⟩, [], written⟩ := by
  rintro ⟨base, places, h⟩
  obtain rfl : places = [] := List.forall₂_nil_left_iff.mp h.placed
  have hcnt : ∀ j, ringCnt [] j = 0 := fun j => rfl
  have hlast := congrArg List.getLast? h.data
  rw [ringBytes, List.getLast?_concat, hcnt] at hlast
  exact absurd hlast (by decide : some (1 : UInt8) ≠ some 0)

/-- **Rings of messages**: a message that the channel refuses for good is lost, and a
reader at the greatest offset is taken for one that has not read. -/
theorem not_ring_runs :
    (¬ ∀ (ops : List RingOp) s, ops.foldlM (RingSys.step 16) (RingSys.init 16) = .ok s →
      ∀ r ∈ s.readers, ∀ e ∈ r.got, e.2 = .sent ∨ e.2 = .tooLarge) ∧
    ¬ ∀ ops : List RingOp, ∃ s,
      ops.foldlM (RingSys.step 16) (RingSys.init 4) = .ok s ∧ s.Good 16 := by
  constructor
  · intro h
    have hrun := h [.write 8 [] [[97]], .attach false, .read 0 fun _ => .refused] _ rfl
    exact absurd (hrun _ (List.mem_singleton.mpr rfl) _ (List.mem_singleton.mpr rfl)) (by decide)
  · intro h
    -- 6148914691236517205 messages lead to the greatest offset
    obtain ⟨n, hn⟩ : ∃ n, 3 * n + 4 = 2 ^ 64 := ⟨6148914691236517204, by omega⟩
    obtain ⟨s, hrun, hgood⟩ := h (List.replicate (n + 1) (.write 8 [] [[97]]) ++
      [.attach true, .read 0 fun _ => .sent, .detach 0])
    have hofs : 3 * n % 2 ^ 64 + 4 = 2 ^ 64 := by omega
    rw [List.foldlM_append, foldlM_write_four, bind_eq_ok_iff] at hrun
    obtain ⟨t, ht, hrun⟩ := hrun
    obtain rfl := Except.ok.inj ht
    rw [foldlM_clash hofs] at hrun
    obtain rfl := Except.ok.inj hrun
    exact not_good_clash hgood

end SmartHAProxy
