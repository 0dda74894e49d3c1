/-
The two bounds that the whitelist table relies on (whitelist.c).

`hashInTable_iff`: the slot number of a key.  The sum of signed characters may be
negative, and then the remainder is a slot only if it is 0.  `slotSum_eq` gives the
sum in terms of the bytes.

`serversFit_iff`: the server string of an entry.  The first insert of a key decides
how much may be copied into the entry by all the later ones.
-/
import Mathlib.Algebra.Order.Ring.Int
import SmartHAProxy.Whitelist.Table

namespace SmartHAProxy

/-! ### Slot numbers -/

/-- The number of bytes that are negative characters. -/
def highBytes (key : CStr) : ℕ := key.countP (128 ≤ ·)

/-- The sum of the bytes, which are 0 to 255. -/
def byteSum (key : CStr) : ℕ := (key.map UInt8.toNat).sum

theorem charVal_eq (b : UInt8) : charVal b = b.toNat - 256 * if 128 ≤ b then 1 else 0 := by
  have hall : ∀ n < 256, charVal (UInt8.ofNat n) =
      (UInt8.ofNat n).toNat - 256 * if 128 ≤ UInt8.ofNat n then 1 else 0 := by
    decide +kernel
  rw [← UInt8.ofNat_toNat (x := b)]
  exact hall b.toNat b.toNat_lt

theorem slotSum_eq (key : CStr) :
    (key.map charVal).sum = (byteSum key : ℤ) - 256 * highBytes key := by
  induction key with
  | nil => rfl
  | cons b key ih =>
    have hbyte : byteSum (b :: key) = b.toNat + byteSum key := rfl
    have hhigh : highBytes (b :: key) = highBytes key + if 128 ≤ b then 1 else 0 := by
      simp [highBytes, List.countP_cons]
    rw [List.map_cons, List.sum_cons, ih, charVal_eq, hbyte, hhigh]
    split_ifs <;> push_cast <;> omega

theorem tmod_nonneg_iff {a b : ℤ} : 0 ≤ a.tmod b ↔ 0 ≤ a ∨ b ∣ a := by
  constructor
  · intro h
    by_cases ha : 0 ≤ a
    · exact .inl ha
    · right
      have hneg : (-a).tmod b = -(a.tmod b) := Int.neg_tmod a b
      have hpos : 0 ≤ (-a).tmod b := Int.tmod_nonneg b (by omega)
      exact Int.dvd_of_tmod_eq_zero (by omega)
  · rintro (ha | ha)
    · exact Int.tmod_nonneg b ha
    · rw [Int.tmod_eq_zero_of_dvd ha]

/-- The slot number of the key is in the table, and neither the insert nor the search
leaves a table of `CAPACITY` slots. -/
def HashInTable (key : CStr) : Prop :=
  0 ≤ hashRequest key ∧ hashRequest key < capacity ∧
    ∀ wl : Whitelist, wl.requests.length = capacity →
      searchRequest wl key ≠ .error .outOfBounds ∧
        ∀ servers, insertRequest wl key servers ≠ .error .outOfBounds

theorem Whitelist.at_ok {wl : Whitelist} (hlen : wl.requests.length = capacity) {key : CStr}
    (hk : 0 ≤ hashRequest key) : ∃ r, wl.at (hashRequest key) = .ok r := by
  obtain ⟨i, hi⟩ := Int.eq_ofNat_of_zero_le hk
  have hlt : i < wl.requests.length := by
    have := hashRequest_lt key
    omega
  refine ⟨wl.requests[i], ?_⟩
  rw [hi]
  simp only [Whitelist.at, List.getElem?_eq_getElem hlt]

theorem strcpy_ne_outOfBounds (room : ℕ) (s : CStr) : strcpy room s ≠ .error .outOfBounds := by
  rw [strcpy]
  split_ifs
  · intro h
    cases h
  · intro h
    cases h

theorem insertRequest_ne_outOfBounds {wl : Whitelist} (hlen : wl.requests.length = capacity)
    {key : CStr} (hk : 0 ≤ hashRequest key) (servers : CStr) :
    insertRequest wl key servers ≠ .error .outOfBounds := by
  obtain ⟨r, hr⟩ := wl.at_ok hlen hk
  rw [insertRequest, createRequest]
  rcases hkey : strcpy maxLine key with e | k
  · -- the method does not fit its buffer
    intro h
    cases h
    exact strcpy_ne_outOfBounds _ _ hkey
  · obtain ⟨-, rfl⟩ := strcpy_eq_ok.mp hkey
    simp only [bind, Except.bind, pure, Except.pure, hr]
    rcases r with - | cur
    · split_ifs
      · intro h
        cases h
      · intro h
        cases h
    · simp only
      split_ifs
      · rcases hcopy : strcpy cur.room servers with e | s
        · intro h
          cases h
          exact strcpy_ne_outOfBounds _ _ hcopy
        · intro h
          cases h
      · intro h
        cases h

/-- **The slot number is in range** unless bytes from 128 on outweigh the others. -/
theorem hashInTable_iff (key : CStr) :
    HashInTable key ↔
      256 * highBytes key ≤ byteSum key ∨ (100 : ℤ) ∣ 256 * highBytes key - byteSum key := by
  have hsum : 0 ≤ hashRequest key ↔
      256 * highBytes key ≤ byteSum key ∨ (100 : ℤ) ∣ 256 * highBytes key - byteSum key := by
    rw [hashRequest, tmod_nonneg_iff, slotSum_eq]
    have hdvd : ((capacity : ℕ) : ℤ) ∣ byteSum key - 256 * highBytes key ↔
        (100 : ℤ) ∣ 256 * highBytes key - byteSum key := by
      rw [← Int.dvd_neg, Int.neg_sub]
      rfl
    rw [hdvd]
    have hle : (0 : ℤ) ≤ byteSum key - 256 * highBytes key ↔
        256 * highBytes key ≤ byteSum key := by omega
    rw [hle]
  rw [← hsum]
  constructor
  · exact fun h => h.1
  · intro hk
    refine ⟨hk, hashRequest_lt key, fun wl hwl => ⟨?_, insertRequest_ne_outOfBounds hwl hk⟩⟩
    obtain ⟨r, hr⟩ := wl.at_ok hwl hk
    simp only [searchRequest, hr, bind, Except.bind]
    rcases r with - | r
    · intro h
      cases h
    · simp only
      split_ifs
      · intro h
        cases h
      · intro h
        cases h

/-- The byte 255 is the character -1. -/
theorem not_hashInTable : ¬ HashInTable [255] := by
  rintro ⟨h, -⟩
  exact absurd h (by decide)

/-! ### Server strings -/

/-- In the run of the inserts, no `strcpy` into the server string of an existing entry
copies more bytes than the entry was allocated with. -/
def ServersFit (ops : List (CStr × CStr)) : Prop :=
  ∀ pre o, pre ++ [o] <+: ops → ∀ wl, insertAll (createWhitelist capacity) pre = .ok wl →
    ∀ cur, wl.at (hashRequest o.1) = .ok (some cur) → cur.key = o.1 →
      o.2.length + 1 ≤ cur.room

/-- After inserts without a fault, no insert of the key that owns its slot has a longer
server string than the first insert of that key. -/
def NoneLonger (ops : List (CStr × CStr)) : Prop :=
  ∀ pre o, pre ++ [o] <+: ops → AllAdmitted pre →
    ∀ p, owner hashRequest pre (hashRequest o.1) = some p → p.1 = o.1 →
      o.2.length ≤ p.2.length

theorem Whitelist.at_nonneg {wl : Whitelist} {i : ℤ} {r : Option Request}
    (h : wl.at i = .ok r) : 0 ≤ i := by
  by_contra hi
  rw [wl.at_neg (by omega)] at h
  cases h

/-- **The server strings fit** exactly if none is longer than the first one of its key. -/
theorem serversFit_iff (ops : List (CStr × CStr)) : ServersFit ops ↔ NoneLonger ops := by
  constructor
  · intro h pre o hpre hall p hp hpo
    obtain ⟨wl, hrun⟩ := insertAll_of_allAdmitted hall
    have hwl := (insertAll_holds hrun).2
    have hk : 0 ≤ hashRequest o.1 := by
      -- the owner was inserted, and so its slot exists
      obtain ⟨hmem, hslot⟩ := owner_mem hp
      obtain ⟨l, r, rfl⟩ := List.append_of_mem hmem
      have hpref : l ++ [p] <+: l ++ p :: r := ⟨r, by simp⟩
      rw [← hslot]
      exact (hall l p hpref).2.1
    have hat := hwl.at_eq hk
    have hentry : entryOf pre (hashRequest o.1) = some
        { key := p.1, method := p.1, servers := (lastValue pre p.1).getD [],
          room := p.2.length + 1 } := by
      rw [entryOf, hp, Option.map_some]
    rw [hentry] at hat
    have := h pre o hpre wl hrun _ hat hpo
    simp only at this
    omega
  · intro h pre o hpre wl hrun cur hcur hkey
    obtain ⟨hall, hwl⟩ := insertAll_holds hrun
    rw [hwl.at_eq (Whitelist.at_nonneg hcur)] at hcur
    rcases hp : owner hashRequest pre (hashRequest o.1) with - | p
    · simp [entryOf, hp] at hcur
    · have hentry : cur =
          { key := p.1, method := p.1, servers := (lastValue pre p.1).getD [],
            room := p.2.length + 1 } := by
        simpa [entryOf, hp, eq_comm] using hcur
      subst hentry
      exact Nat.succ_le_succ (h pre o hpre hall p hp hkey)

/-- The empty server list "0" comes first, and a list of three servers later. -/
theorem not_serversFit :
    ¬ ServersFit [(bytes "GET", bytes "0"), (bytes "GET", bytes "123")] := by
  intro h
  have hrun : insertAll (createWhitelist capacity) [(bytes "GET", bytes "0")] = .ok
      { requests := (List.replicate capacity none).set 24 (some
          { key := bytes "GET", method := bytes "GET", servers := bytes "0", room := 2 })
        size := capacity, count := 1 } := by decide
  have := h [(bytes "GET", bytes "0")] (bytes "GET", bytes "123") ⟨[], rfl⟩ _ hrun _ rfl rfl
  exact absurd this (by decide)

end SmartHAProxy
