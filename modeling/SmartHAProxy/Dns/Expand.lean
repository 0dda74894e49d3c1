/-
Names read from DNS packets, compared with the standard.

A name of the standard (`Expands`) has labels of up to 63 bytes, the names that
are accepted of up to 191.  The offset behind a name is computed by a scan of the
raw bytes, which stops at the first byte that is zero or has its two upper bits
set, be it the end of the name or a character of a label (`StopsEarly`).

Main results: `resolvNameOffset_iff` for the scan and `resolv_read_name_iff`.
-/
import SmartHAProxy.Dns.Decompress

namespace SmartHAProxy

variable {packet : CStr} {own all : List CStr} {ptr : Bool}

/-! ### The standard -/

/-- The name at a position of a packet, as the standard has it: its labels, and the bytes that it
occupies there. -/
inductive Expands (packet : CStr) : ℕ → List CStr → ℕ → Prop
  | root {pos : ℕ} : packet[pos]? = some 0 → Expands packet pos [] 1
  | label {pos : ℕ} {b : UInt8} {l : CStr} {ls : List CStr} {size : ℕ} :
      packet[pos]? = some b → 0 < b.toNat → b.toNat ≤ 63 → l.length = b.toNat →
      (packet.drop (pos + 1)).take b.toNat = l → Expands packet (pos + 1 + b.toNat) ls size →
      Expands packet pos (l :: ls) (1 + b.toNat + size)
  | pointer {pos : ℕ} {b b1 : UInt8} {ls : List CStr} {size : ℕ} :
      packet[pos]? = some b → b &&& 0xc0 = 0xc0 → packet[pos + 1]? = some b1 →
      Expands packet ((b &&& 0x3f).toNat * 256 + b1.toNat) ls size → Expands packet pos ls 2

/-- The bytes that a name occupies at its position. -/
def nameSize (own : List CStr) (ptr : Bool) : ℕ := (dnLabels own).length + if ptr then 2 else 1

theorem and_0xc0_ne {b : UInt8} (h : b.toNat ≤ 63) : b &&& 0xc0 ≠ 0xc0 := by
  intro hc
  have hle : (b &&& 0xc0).toNat ≤ b.toNat := by
    rw [UInt8.toNat_and]
    exact Nat.and_le_left
  rw [hc] at hle
  have : (0xc0 : UInt8).toNat = 192 := rfl
  omega

theorem ne_zero_of_toNat_pos {b : UInt8} (h : 0 < b.toNat) : b ≠ 0 := by
  rintro rfl
  exact absurd h (Nat.lt_irrefl 0)

theorem NameAt.expands {left pos : ℕ} (h : NameAt packet left pos own ptr all)
    (hshort : ∀ l ∈ all, l.length ≤ 63) : Expands packet pos all (nameSize own ptr) := by
  induction h with
  | root hb => exact .root hb
  | @label left pos b l own all ptr hb hc h0 hlen htake _ ih =>
    obtain ⟨hl, hall⟩ := List.forall_mem_cons.mp hshort
    have hsize : nameSize (l :: own) ptr = 1 + b.toNat + nameSize own ptr := by
      rw [nameSize, length_dnLabels_cons, hlen, nameSize]
      omega
    have hpos : 0 < b.toNat := Nat.pos_of_ne_zero fun h => h0 (UInt8.toNat_inj.mp h)
    have hrest := ih hall
    rw [Nat.add_right_comm] at hrest
    rw [hsize]
    exact .label hb hpos (hlen ▸ hl) hlen htake hrest
  | pointer hb hc hb1 _ _ _ ih => exact .pointer hb hc hb1 (ih hshort)

/-- And a name of the standard that is accepted is read as such. -/
theorem NameAt.unique {left pos size : ℕ} {ls : List CStr} (h : NameAt packet left pos own ptr all)
    (he : Expands packet pos ls size) :
    ls = all ∧ size = nameSize own ptr ∧ ∀ l ∈ all, l.length ≤ 63 := by
  induction h generalizing ls size with
  | root hb =>
    cases he with
    | root _ => exact ⟨rfl, rfl, fun l hl => absurd hl List.not_mem_nil⟩
    | label hb' hpos =>
      exact absurd (Option.some.inj (hb'.symm.trans hb)) (ne_zero_of_toNat_pos hpos)
    | pointer hb' hc =>
      rw [Option.some.inj (hb'.symm.trans hb)] at hc
      exact absurd hc (by decide)
  | @label left pos b l own all ptr hb hc h0 hlen htake _ ih =>
    cases he with
    | root hb' => exact absurd (Option.some.inj (hb.symm.trans hb')) h0
    | label hb' _ hle _ htake' hrest =>
      obtain rfl := Option.some.inj (hb.symm.trans hb')
      rw [Nat.add_right_comm] at hrest
      obtain ⟨rfl, rfl, hall⟩ := ih hrest
      refine ⟨congrArg (· :: _) (htake'.symm.trans htake), ?_,
        List.forall_mem_cons.mpr ⟨hlen.symm ▸ hle, hall⟩⟩
      rw [nameSize, nameSize, length_dnLabels_cons, hlen]
      omega
    | pointer hb' hc' =>
      rw [← Option.some.inj (hb.symm.trans hb')] at hc'
      exact absurd hc' hc
  | @pointer left pos b b1 own all ptr hb hc hb1 _ _ _ ih =>
    cases he with
    | root hb' =>
      rw [Option.some.inj (hb.symm.trans hb')] at hc
      exact absurd hc (by decide)
    | label hb' _ hle =>
      obtain rfl := Option.some.inj (hb.symm.trans hb')
      exact absurd hc (and_0xc0_ne hle)
    | pointer hb' _ hb1' hrest =>
      obtain rfl := Option.some.inj (hb.symm.trans hb')
      obtain rfl := Option.some.inj (hb1.symm.trans hb1')
      obtain ⟨rfl, -, hall⟩ := ih hrest
      exact ⟨rfl, rfl, hall⟩

/-! ### The offset -/

/-- A byte at which the scan of the offset stops. -/
def stopByte (c : UInt8) : Prop := c &&& 0xc0 = 0xc0 ∨ c = 0

/-- The scan of the bytes `w` in front of the end of a name stops too early, except if it takes
the last one of them and the root for a pointer. -/
def StopsEarly (w : CStr) (ptr : Bool) : Prop :=
  ∃ w₁ c w₂, w = w₁ ++ c :: w₂ ∧ stopByte c ∧ (c = 0 ∨ w₂ ≠ [] ∨ ptr = true)

def NameEnd (ptr : Bool) (rest : CStr) : Prop :=
  if ptr then ∃ b rest', rest = b :: rest' ∧ b &&& 0xc0 = 0xc0 else ∃ rest', rest = 0 :: rest'

theorem NameAt.drop_eq {left pos : ℕ} (h : NameAt packet left pos own ptr all) :
    ∃ rest, packet.drop pos = dnLabels own ++ rest ∧ NameEnd ptr rest := by
  have hcons {pos : ℕ} {b : UInt8} (hb : packet[pos]? = some b) :
      packet.drop pos = b :: packet.drop (pos + 1) := by
    obtain ⟨hpos, hget⟩ := List.getElem?_eq_some_iff.mp hb
    rw [List.drop_eq_getElem_cons hpos, hget]
  induction h with
  | root hb => exact ⟨_, hcons hb, _, rfl⟩
  | pointer hb hc => exact ⟨_, hcons hb, _, _, rfl, hc⟩
  | @label left pos b l own all ptr hb hc h0 hlen htake _ ih =>
    obtain ⟨rest, hdrop, hend⟩ := ih
    refine ⟨rest, ?_, hend⟩
    have hsplit : packet.drop (pos + 1) = l ++ packet.drop (pos + b.toNat + 1) := by
      have hdd : packet.drop (pos + 1 + b.toNat) = (packet.drop (pos + 1)).drop b.toNat :=
        List.drop_drop.symm
      rw [← htake, Nat.add_right_comm pos, hdd, List.take_append_drop]
    rw [hcons hb, hsplit, hdrop, dnLabels_cons, hlen, UInt8.ofNat_toNat, List.cons_append,
      List.append_assoc]

/-- **The scan finds the end of a name** exactly when it does not stop early. -/
theorem resolvNameOffset_iff {rest : CStr} (hend : NameEnd ptr rest) (w : CStr) :
    resolvNameOffset (w ++ rest) = w.length + (if ptr then 2 else 1) ↔ ¬ StopsEarly w ptr := by
  induction w with
  | nil =>
    refine iff_of_true ?_ ?_
    · rw [List.nil_append, List.length_nil, Nat.zero_add]
      cases ptr with
      | false =>
        obtain ⟨rest', rfl⟩ := hend
        rfl
      | true =>
        obtain ⟨b, rest', rfl, hb⟩ := hend
        rw [resolvNameOffset, if_pos hb]
        rfl
    · rintro ⟨w₁, c, w₂, h, -⟩
      exact absurd h.symm (List.append_ne_nil_of_right_ne_nil _ (List.cons_ne_nil _ _))
  | cons b w ih =>
    rw [List.cons_append, resolvNameOffset, List.length_cons]
    by_cases hc : b &&& 0xc0 = 0xc0
    · -- taken for a pointer
      have hb0 : b ≠ 0 := by
        rintro rfl
        exact absurd hc (by decide)
      rw [if_pos hc]
      constructor
      · rintro h ⟨w₁, c, w₂, heq, hstop, hcase⟩
        have hlen : w.length = 0 ∧ ptr = false := by
          cases ptr with
          | false => exact ⟨by simpa using h.symm, rfl⟩
          | true =>
            simp only [if_true] at h
            omega
        obtain rfl : w = [] := List.length_eq_zero_iff.mp hlen.1
        rcases w₁ with - | ⟨d, w₁⟩
        · obtain ⟨rfl, rfl⟩ := List.cons.inj heq
          rcases hcase with rfl | hne | hptr
          · exact hb0 rfl
          · exact hne rfl
          · exact absurd (hptr.symm.trans hlen.2) (by decide)
        · have := congrArg List.length heq
          simp at this
      · intro h
        have hw : w = [] := by
          by_contra hne
          exact h ⟨[], b, w, rfl, .inl hc, .inr (.inl hne)⟩
        have hptr : ptr = false := by
          rw [← Bool.not_eq_true]
          exact fun hptr => h ⟨[], b, w, rfl, .inl hc, .inr (.inr hptr)⟩
        rw [hw, hptr]
        rfl
    rw [if_neg hc]
    by_cases h0 : b = 0
    · rw [if_pos h0]
      refine iff_of_false ?_ fun h => h ⟨[], b, w, rfl, .inr h0, .inl h0⟩
      split_ifs <;> omega
    · -- a byte that is passed
      rw [if_neg h0]
      have hshift : StopsEarly (b :: w) ptr ↔ StopsEarly w ptr := by
        constructor
        · rintro ⟨w₁, c, w₂, heq, hstop, hcase⟩
          rcases w₁ with - | ⟨d, w₁⟩
          · obtain ⟨rfl, rfl⟩ := List.cons.inj heq
            exact absurd hstop (not_or.mpr ⟨hc, h0⟩)
          · exact ⟨w₁, c, w₂, (List.cons.inj heq).2, hstop, hcase⟩
        · rintro ⟨w₁, c, w₂, rfl, hstop, hcase⟩
          exact ⟨b :: w₁, c, w₂, rfl, hstop, hcase⟩
      rw [hshift, ← ih]
      omega

/-! ### Exact names -/

/-- What is asked of a successful call, with the value `n`: the destination holds the name at the
position as the standard has it, and the offset is its size. -/
def NameExact (packet : CStr) (name n : ℕ) (m : NameMem) : Prop :=
  n ≠ 0 → ∃ ls size, Expands packet name ls size ∧ m.dst.take n = dnLabels ls ∧ m.offset = size

/-- The name is accepted although it has a label of more than 63 bytes, or a byte of its labels at
the position stops the scan of the offset early. -/
def Misread (packet : CStr) (name destLen : ℕ) : Prop :=
  ∃ own ptr all, NameAt packet 101 name own ptr all ∧ all ≠ [] ∧ (dnLabels all).length ≤ destLen ∧
    ((∃ l ∈ all, 63 < l.length) ∨ StopsEarly (dnLabels own) ptr)

/-- **`resolv_read_name` terminates without a fault**: it reads no byte outside of the packet and
writes none outside of the destination.  **A name that is read is the one of the standard, and the
offset its size**, exactly when it is not misread. -/
theorem resolv_read_name_iff (packet : CStr) (name : ℕ) (m : NameMem) :
    ∃ n m', resolvReadNameMem packet 101 name 0 m.dst.length m = .ok (n, m') ∧
      m'.dst.length = m.dst.length ∧
      (NameExact packet name n m' ↔ ¬ Misread packet name m.dst.length) := by
  obtain ⟨⟨n, m'⟩, hrun, ⟨hlen, hstep⟩, hoff⟩ :=
    resolvReadNameMem_eq packet 101 name 0 m.dst.length m (by omega)
  refine ⟨n, m', hrun, hlen, ?_⟩
  have hbytes := resolvReadBytes_iff packet 101 name m.dst.length
  rcases hout : resolvReadBytes packet 101 name m.dst.length with - | out
  · -- refused
    rw [hout] at hstep
    refine iff_of_true (fun hn => absurd hstep hn) ?_
    rintro ⟨own, ptr, all, hname, -, hfit, -⟩
    exact nomatch hout.symm.trans ((hbytes _).mpr ⟨own, ptr, all, hname, rfl, hfit⟩)
  obtain ⟨own, ptr, all, hname, rfl, hfit⟩ := (hbytes _).mp hout
  rw [hout] at hstep hoff
  obtain ⟨hn, hdst⟩ : n = (dnLabels all).length ∧ m'.dst = overwrite m.dst 0 (dnLabels all) := hstep
  obtain hoff : m'.offset = resolvNameOffset (packet.drop name) := hoff (fun h => nomatch h)
  -- the scan is right exactly when it does not stop early
  have hscan : m'.offset = nameSize own ptr ↔ ¬ StopsEarly (dnLabels own) ptr := by
    obtain ⟨rest, hdrop, hend⟩ := hname.drop_eq
    rw [hoff, hdrop]
    exact resolvNameOffset_iff hend (dnLabels own)
  have hread : m'.dst.take n = dnLabels all := by
    rw [hn, hdst, overwrite, List.take_zero, List.nil_append, List.take_left]
  constructor
  · rintro hexact ⟨own', ptr', all', hname', hne, -, hbad⟩
    obtain ⟨rfl, rfl, rfl⟩ := hname.det hname'
    have hpos : n ≠ 0 := by
      rw [hn]
      exact fun h => hne (dnLabels_eq_nil_iff.mp (List.length_eq_zero_iff.mp h))
    obtain ⟨ls, size, hexp, -, hsize⟩ := hexact hpos
    obtain ⟨-, rfl, hshort⟩ := hname.unique hexp
    rcases hbad with ⟨l, hl, hlong⟩ | hstop
    · exact Nat.not_lt_of_le (hshort l hl) hlong
    · exact hscan.mp hsize hstop
  · intro hgood hpos
    have hne : all ≠ [] := by
      rintro rfl
      exact hpos hn
    have hok := fun h => hgood ⟨own, ptr, all, hname, hne, hfit, h⟩
    have hshort : ∀ l ∈ all, l.length ≤ 63 :=
      fun l hl => Nat.le_of_not_lt fun h => hok (.inl ⟨l, hl, h⟩)
    exact ⟨all, _, hname.expands hshort, hread, hscan.mpr fun h => hok (.inr h)⟩

/-- A label with a zero byte: the name takes six bytes and is said to take three. -/
theorem not_resolv_read_name :
    ¬ ∀ (packet : CStr) (name : ℕ) (m : NameMem),
      ∃ n m', resolvReadNameMem packet 101 name 0 m.dst.length m = .ok (n, m') ∧
        m'.dst.length = m.dst.length ∧ NameExact packet name n m' := by
  intro h
  obtain ⟨n, m', hrun, -, hexact⟩ := h [3, 97, 0, 98, 0] 0 ⟨[0, 0, 0, 0, 0, 0], 0⟩
  have hval : resolvReadNameMem [3, 97, 0, 98, 0] 101 0 0 6 ⟨[0, 0, 0, 0, 0, 0], 0⟩
      = .ok (4, ⟨[3, 97, 0, 98, 0, 0], 3⟩) := rfl
  obtain ⟨rfl, rfl⟩ := Prod.mk.inj (Except.ok.inj (hval.symm.trans hrun))
  obtain ⟨ls, size, hexp, -, hoff⟩ := hexact (by decide)
  cases hexp with
  | root hb => exact absurd hb (by decide)
  | label hb =>
    obtain rfl := Option.some.inj hb
    have hthree : (3 : UInt8).toNat = 3 := rfl
    have hoff' : (3 : ℕ) = _ := hoff
    omega
  | pointer hb hc =>
    obtain rfl := Option.some.inj hb
    exact absurd hc (by decide)

end SmartHAProxy
