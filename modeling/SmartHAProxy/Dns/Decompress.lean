/-
Compressed names in DNS packets (resolvers.c).

`resolv_read_name` with its memory: the packet is read byte by byte and the labels
are copied to the destination, both within bounds or there is a fault.  The walk
over the labels is followed by a call of the function itself at a pointer, and
then by a second scan of the raw bytes for the offset.

The names that the function accepts are `NameAt`; their labels have up to 191
bytes.  `resolvReadNameMem_eq` says that the function meets no fault and does
what the function on lists does, `resolvReadBytes_iff` which names it reads.
-/
import SmartHAProxy.Dns.Label

namespace SmartHAProxy

variable {destLen : ℕ} {jump : ℕ → ℕ → Option CStr}

/-! ### The function with its memory -/

def readByte (packet : CStr) (reader : ℕ) : Except Fault UInt8 :=
  match packet[reader]? with
  | some b => .ok b
  | none => .error .outOfBounds

/-- The destination and `*offset`. -/
structure NameMem where
  dst : List UInt8
  offset : ℕ

section Walk

variable (packet : CStr)

/-- The loop of `resolv_read_name`: the count of bytes behind `out`, none behind `err`.  `jump` is
the call at a pointer. -/
def resolvReadLoop (jump : ℕ → ℕ → ℕ → NameMem → Except Fault (ℕ × NameMem)) (destLen : ℕ) :
    ℕ → ℕ → ℕ → ℕ → NameMem → Except Fault (Option ℕ × NameMem)
  | 0, _, _, _, _ => .error .overflow
  | fuel + 1, reader, dest, nbBytes, m =>
    if packet.length ≤ reader then .ok (none, m)
    else do
      let b ← readByte packet reader
      -- name compression is in use
      if b &&& 0xc0 = 0xc0 then
        if packet.length ≤ reader + 1 then pure (none, m)
        else do
          let b1 ← readByte packet (reader + 1)
          -- only the low byte of the pointer is compared
          if reader < b1.toNat then pure (none, m)
          else do
            let r ← jump ((b &&& 0x3f).toNat * 256 + b1.toNat) dest (destLen - nbBytes) m
            if r.1 = 0 then pure (none, r.2) else pure (some (nbBytes + r.1), r.2)
      else if b = 0 then pure (some nbBytes, m)
      else if packet.length ≤ reader + b.toNat ∨ destLen ≤ nbBytes + b.toNat then pure (none, m)
      else do
        let dst ← memcpy m.dst dest packet reader (b.toNat + 1)
        resolvReadLoop jump destLen fuel (reader + b.toNat + 1) (dest + b.toNat + 1)
          (nbBytes + b.toNat + 1) { m with dst }

/-- The computation of `*offset`. -/
def resolvOffsetLoop : ℕ → ℕ → ℕ → Except Fault ℕ
  | 0, _, _ => .error .overflow
  | fuel + 1, reader, offset =>
    if packet.length ≤ reader then .ok offset
    else do
      let b ← readByte packet reader
      if b &&& 0xc0 = 0xc0 then pure (offset + 2)
      else if b = 0 then pure (offset + 1)
      else resolvOffsetLoop fuel (reader + 1) (offset + 1)

def resolvReadEnd (name : ℕ) : Option ℕ × NameMem → Except Fault (ℕ × NameMem)
  | (none, m) => .ok (0, m)
  | (some nbBytes, m) => do
    let offset ← resolvOffsetLoop packet (packet.length + 1) name 0
    pure (nbBytes, { m with offset })

/-- `resolv_read_name` when `left` pointers may be followed: the value returned, the destination
and `*offset`. -/
def resolvReadNameMem : ℕ → ℕ → ℕ → ℕ → NameMem → Except Fault (ℕ × NameMem)
  | 0, name, dest, destLen, m =>
    resolvReadLoop packet (fun _ _ _ m => .ok (0, m)) destLen (packet.length + 1) name dest 0 m
      >>= resolvReadEnd packet name
  | left + 1, name, dest, destLen, m =>
    resolvReadLoop packet (resolvReadNameMem left) destLen (packet.length + 1) name dest 0 m
      >>= resolvReadEnd packet name

end Walk

/-! ### Accepted names -/

/-- The names that are accepted with `left` pointers at most: the labels at the position, whether
a pointer follows them, and all labels. -/
inductive NameAt (packet : CStr) : ℕ → ℕ → List CStr → Bool → List CStr → Prop
  | root {left pos : ℕ} : packet[pos]? = some 0 → NameAt packet left pos [] false []
  | label {left pos : ℕ} {b : UInt8} {l : CStr} {own all : List CStr} {ptr : Bool} :
      packet[pos]? = some b → b &&& 0xc0 ≠ 0xc0 → b ≠ 0 → l.length = b.toNat →
      (packet.drop (pos + 1)).take b.toNat = l →
      NameAt packet left (pos + b.toNat + 1) own ptr all →
      NameAt packet left pos (l :: own) ptr (l :: all)
  | pointer {left pos : ℕ} {b b1 : UInt8} {own all : List CStr} {ptr : Bool} :
      packet[pos]? = some b → b &&& 0xc0 = 0xc0 → packet[pos + 1]? = some b1 → b1.toNat ≤ pos →
      NameAt packet left ((b &&& 0x3f).toNat * 256 + b1.toNat) own ptr all → all ≠ [] →
      NameAt packet (left + 1) pos [] true all

theorem dnLabels_cons (l : CStr) (ls : List CStr) :
    dnLabels (l :: ls) = UInt8.ofNat l.length :: (l ++ dnLabels ls) := rfl

theorem length_dnLabels_cons (l : CStr) (ls : List CStr) :
    (dnLabels (l :: ls)).length = l.length + 1 + (dnLabels ls).length := by
  rw [dnLabels_cons, List.length_cons, List.length_append]
  omega

theorem dnLabels_eq_nil_iff {ls : List CStr} : dnLabels ls = [] ↔ ls = [] := by
  cases ls with
  | nil => exact iff_of_true rfl rfl
  | cons l ls => exact iff_of_false (fun h => nomatch h) (List.cons_ne_nil _ _)

theorem take_label {packet : CStr} {pos : ℕ} {b : UInt8} (hb : packet[pos]? = some b) :
    (packet.drop pos).take (b.toNat + 1) = b :: (packet.drop (pos + 1)).take b.toNat := by
  obtain ⟨hpos, hget⟩ := List.getElem?_eq_some_iff.mp hb
  rw [List.drop_eq_getElem_cons hpos, hget, List.take_succ_cons]

section Inversion

variable {packet : CStr} {left pos : ℕ} {b : UInt8} {own all : List CStr} {ptr : Bool}

theorem NameAt.exists_byte (h : NameAt packet left pos own ptr all) :
    ∃ b, packet[pos]? = some b := by
  cases h with
  | root hb => exact ⟨_, hb⟩
  | label hb => exact ⟨_, hb⟩
  | pointer hb => exact ⟨_, hb⟩

theorem NameAt.root_iff (hb : packet[pos]? = some 0) :
    NameAt packet left pos own ptr all ↔ own = [] ∧ ptr = false ∧ all = [] := by
  constructor
  · intro h
    cases h with
    | root _ => exact ⟨rfl, rfl, rfl⟩
    | label hb' _ hne => exact absurd (Option.some.inj (hb'.symm.trans hb)) hne
    | pointer hb' hc =>
      rw [Option.some.inj (hb'.symm.trans hb)] at hc
      exact absurd hc (by decide)
  · rintro ⟨rfl, rfl, rfl⟩
    exact .root hb

theorem NameAt.pointer_iff (hb : packet[pos]? = some b) (hc : b &&& 0xc0 = 0xc0) :
    NameAt packet left pos own ptr all ↔ own = [] ∧ ptr = true ∧ ∃ left' b1 own' ptr',
      left = left' + 1 ∧ packet[pos + 1]? = some b1 ∧ b1.toNat ≤ pos ∧ all ≠ [] ∧
        NameAt packet left' ((b &&& 0x3f).toNat * 256 + b1.toNat) own' ptr' all := by
  constructor
  · intro h
    cases h with
    | root hb' =>
      rw [Option.some.inj (hb.symm.trans hb')] at hc
      exact absurd hc (by decide)
    | label hb' hc' =>
      rw [Option.some.inj (hb.symm.trans hb')] at hc
      exact absurd hc hc'
    | pointer hb' _ hb1 hle hname hne =>
      obtain rfl := Option.some.inj (hb.symm.trans hb')
      exact ⟨rfl, rfl, _, _, _, _, rfl, hb1, hle, hne, hname⟩
  · rintro ⟨rfl, rfl, left', b1, own', ptr', rfl, hb1, hle, hne, hname⟩
    exact .pointer hb hc hb1 hle hname hne

theorem NameAt.label_iff (hb : packet[pos]? = some b) (hc : b &&& 0xc0 ≠ 0xc0) (h0 : b ≠ 0) :
    NameAt packet left pos own ptr all ↔ ∃ l own' all', own = l :: own' ∧ all = l :: all' ∧
      l.length = b.toNat ∧ (packet.drop (pos + 1)).take b.toNat = l ∧
        NameAt packet left (pos + b.toNat + 1) own' ptr all' := by
  constructor
  · intro h
    cases h with
    | root hb' => exact absurd (Option.some.inj (hb.symm.trans hb')) h0
    | label hb' _ _ hlen htake hname =>
      obtain rfl := Option.some.inj (hb.symm.trans hb')
      exact ⟨_, _, _, rfl, rfl, hlen, htake, hname⟩
    | pointer hb' hc' =>
      rw [← Option.some.inj (hb.symm.trans hb')] at hc'
      exact absurd hc' hc
  · rintro ⟨l, own', all', rfl, rfl, hlen, htake, hname⟩
    exact .label hb hc h0 hlen htake hname

theorem NameAt.det {left' : ℕ} {own' all' : List CStr} {ptr' : Bool}
    (h : NameAt packet left pos own ptr all) (h' : NameAt packet left' pos own' ptr' all') :
    own' = own ∧ ptr' = ptr ∧ all' = all := by
  induction h generalizing left' own' ptr' all' with
  | root hb =>
    obtain ⟨rfl, rfl, rfl⟩ := (NameAt.root_iff hb).mp h'
    exact ⟨rfl, rfl, rfl⟩
  | label hb hc h0 _ htake _ ih =>
    obtain ⟨l', own', all', rfl, rfl, -, htake', hname⟩ := (NameAt.label_iff hb hc h0).mp h'
    obtain ⟨rfl, rfl, rfl⟩ := ih hname
    rw [← htake, ← htake']
    exact ⟨rfl, rfl, rfl⟩
  | pointer hb hc hb1 _ _ _ ih =>
    obtain ⟨rfl, rfl, _, b1', _, _, -, hb1', -, -, hname⟩ := (NameAt.pointer_iff hb hc).mp h'
    obtain rfl := Option.some.inj (hb1.symm.trans hb1')
    exact ⟨rfl, rfl, (ih hname).2.2⟩

end Inversion

/-- **The names that are read**, as lists: those accepted that fit the destination. -/
theorem resolvReadLabels_iff {packet : CStr} {left : ℕ}
    (hjump : ∀ pos len out, jump pos len = some out ↔
      ∃ left' own ptr all, left = left' + 1 ∧ NameAt packet left' pos own ptr all ∧
        out = dnLabels all ∧ out.length ≤ len) (fuel reader nb : ℕ)
    (hfuel : packet.length < fuel + reader) (hnb : nb ≤ destLen) (out : CStr) :
    resolvReadLabels packet destLen jump fuel reader nb = some out ↔
      ∃ own ptr all, NameAt packet left reader own ptr all ∧ out = dnLabels all ∧
        nb + out.length ≤ destLen := by
  induction fuel generalizing reader nb out with
  | zero =>
    refine iff_of_false (fun h => nomatch h) ?_
    rintro ⟨own, ptr, all, hname, -⟩
    obtain ⟨b, hb⟩ := hname.exists_byte
    have hnone : packet[reader]? = none := List.getElem?_eq_none (by omega)
    exact nomatch hnone.symm.trans hb
  | succ fuel ih =>
    rw [resolvReadLabels]
    rcases hb : packet[reader]? with - | b
    · refine iff_of_false (fun h => nomatch h) ?_
      rintro ⟨own, ptr, all, hname, -⟩
      obtain ⟨b, hb'⟩ := hname.exists_byte
      exact nomatch hb.symm.trans hb'
    show (if b &&& 0xc0 = 0xc0 then _ else _) = _ ↔ _
    by_cases hc : b &&& 0xc0 = 0xc0
    · -- a pointer
      rw [if_pos hc]
      simp only [NameAt.pointer_iff hb hc]
      rcases hb1 : packet[reader + 1]? with - | b1
      · refine iff_of_false (fun h => nomatch h) ?_
        rintro ⟨own, ptr, all, ⟨-, -, left', b1, own', ptr', -, hb1', -⟩, -⟩
        exact nomatch hb1'
      show (if reader < b1.toNat then _ else _) = _ ↔ _
      by_cases hlow : reader < b1.toNat
      · rw [if_pos hlow]
        refine iff_of_false (fun h => nomatch h) ?_
        rintro ⟨own, ptr, all, ⟨-, -, left', b1', own', ptr', -, hb1', hle, -⟩, -⟩
        obtain rfl := Option.some.inj hb1'
        omega
      rw [if_neg hlow]
      have hcall := hjump ((b &&& 0x3f).toNat * 256 + b1.toNat) (destLen - nb)
      constructor
      · intro h
        rcases hrun : jump ((b &&& 0x3f).toNat * 256 + b1.toNat) (destLen - nb) with - | out'
        · rw [hrun] at h
          exact nomatch h
        obtain ⟨left', own', ptr', all, hleft, hname, rfl, hlen⟩ := (hcall _).mp hrun
        rw [hrun] at h
        rcases hall : dnLabels all with - | ⟨c, cs⟩
        · rw [hall] at h
          exact nomatch h
        rw [hall] at h
        obtain rfl := Option.some.inj h
        have hne : all ≠ [] := by
          rintro rfl
          exact nomatch hall
        exact ⟨[], true, all, ⟨rfl, rfl, left', b1, own', ptr', hleft, rfl, by omega, hne, hname⟩,
          hall.symm, by rw [hall] at hlen; omega⟩
      · rintro ⟨own, ptr, all, ⟨-, -, left', b1', own', ptr', hleft, hb1', -, hne, hname⟩, rfl,
          hlen⟩
        obtain rfl := Option.some.inj hb1'
        rw [(hcall _).mpr ⟨left', own', ptr', all, hleft, hname, rfl, by omega⟩]
        rcases hall : dnLabels all with - | ⟨c, cs⟩
        · exact absurd (dnLabels_eq_nil_iff.mp hall) hne
        · rfl
    rw [if_neg hc]
    by_cases h0 : b = 0
    · -- the end of the name
      subst h0
      rw [if_pos rfl]
      simp only [NameAt.root_iff hb]
      constructor
      · intro h
        obtain rfl := Option.some.inj h
        exact ⟨[], false, [], ⟨rfl, rfl, rfl⟩, rfl, hnb⟩
      · rintro ⟨own, ptr, all, ⟨-, -, rfl⟩, rfl, -⟩
        rfl
    · -- a label
      rw [if_neg h0]
      simp only [NameAt.label_iff hb hc h0]
      by_cases hfit : packet.length ≤ reader + b.toNat ∨ destLen ≤ nb + b.toNat
      · rw [if_pos hfit]
        refine iff_of_false (fun h => nomatch h) ?_
        rintro ⟨own, ptr, all, ⟨l, own', all', rfl, rfl, hl, htake, hname⟩, rfl, hlen⟩
        rw [length_dnLabels_cons] at hlen
        have := congrArg List.length htake
        rw [List.length_take, List.length_drop] at this
        have hpos : 0 < b.toNat := Nat.pos_of_ne_zero fun h => h0 (UInt8.toNat_inj.mp h)
        omega
      rw [if_neg hfit]
      have hl : ((packet.drop (reader + 1)).take b.toNat).length = b.toNat := by
        rw [List.length_take, List.length_drop]
        omega
      have hnext := ih (reader + b.toNat + 1) (nb + b.toNat + 1) (by omega) (by omega)
      have hbyte : UInt8.ofNat b.toNat = b := UInt8.ofNat_toNat
      rw [take_label hb]
      constructor
      · intro h
        obtain ⟨out', hout', rfl⟩ := Option.map_eq_some_iff.mp h
        obtain ⟨own, ptr, all, hname, rfl, hlen⟩ := (hnext _).mp hout'
        refine ⟨_, ptr, _, ⟨_, own, all, rfl, rfl, hl, rfl, hname⟩, ?_, ?_⟩
        · rw [dnLabels_cons, hl, hbyte]
          rfl
        · rw [List.length_append, List.length_cons, hl]
          omega
      · rintro ⟨own, ptr, all, ⟨l, own', all', rfl, rfl, hl', rfl, hname⟩, rfl, hlen⟩
        rw [length_dnLabels_cons] at hlen
        rw [(hnext _).mpr ⟨own', ptr, all', hname, rfl, by omega⟩, dnLabels_cons, hl', hbyte]
        rfl

theorem resolvReadBytes_iff (packet : CStr) (left name destLen : ℕ) (out : CStr) :
    resolvReadBytes packet left name destLen = some out ↔
      ∃ own ptr all, NameAt packet left name own ptr all ∧ out = dnLabels all ∧
        out.length ≤ destLen := by
  induction left generalizing name destLen out with
  | zero =>
    have hjump : ∀ pos len out, (fun _ _ => none : ℕ → ℕ → Option CStr) pos len = some out ↔
        ∃ left' own ptr all, 0 = left' + 1 ∧ NameAt packet left' pos own ptr all ∧
          out = dnLabels all ∧ out.length ≤ len := by
      intro pos len out
      refine iff_of_false (fun h => nomatch h) ?_
      rintro ⟨left', -, -, -, h, -⟩
      omega
    rw [resolvReadBytes, resolvReadLabels_iff hjump _ name 0 (by omega) (Nat.zero_le _)]
    simp only [Nat.zero_add]
  | succ left ih =>
    have hjump : ∀ pos len out, resolvReadBytes packet left pos len = some out ↔
        ∃ left' own ptr all, left + 1 = left' + 1 ∧ NameAt packet left' pos own ptr all ∧
          out = dnLabels all ∧ out.length ≤ len := by
      intro pos len out
      rw [ih]
      constructor
      · rintro ⟨own, ptr, all, h⟩
        exact ⟨left, own, ptr, all, rfl, h⟩
      · rintro ⟨left', own, ptr, all, heq, h⟩
        obtain rfl : left = left' := by omega
        exact ⟨own, ptr, all, h⟩
    rw [resolvReadBytes, resolvReadLabels_iff hjump _ name 0 (by omega) (Nat.zero_le _)]
    simp only [Nat.zero_add]

/-! ### The memory follows -/

theorem readByte_eq {packet : CStr} {reader : ℕ} {b : UInt8} (h : packet[reader]? = some b) :
    readByte packet reader = .ok b := by
  rw [readByte, h]

theorem resolvOffsetLoop_eq (packet : CStr) (fuel reader offset : ℕ) (hpos : 0 < fuel)
    (hfuel : packet.length < fuel + reader) :
    resolvOffsetLoop packet fuel reader offset
      = .ok (offset + resolvNameOffset (packet.drop reader)) := by
  induction fuel generalizing reader offset with
  | zero => exact absurd hpos (Nat.lt_irrefl 0)
  | succ fuel ih =>
    rw [resolvOffsetLoop]
    by_cases hend : packet.length ≤ reader
    · rw [if_pos hend, List.drop_of_length_le hend]
      rfl
    have hlt : reader < packet.length := by omega
    rw [if_neg hend, readByte_eq (List.getElem?_eq_getElem hlt), List.drop_eq_getElem_cons hlt,
      resolvNameOffset]
    simp only [bind, Except.bind]
    split_ifs
    · rfl
    · rfl
    · rw [ih (reader + 1) (offset + 1) (by omega) (by omega), Nat.add_assoc]

/-- A call with memory does what the function on lists says: it fails with the value 0, or copies
the bytes to the destination. -/
def NameStep (dest : ℕ) (m : NameMem) (out : Option CStr) (r : ℕ × NameMem) : Prop :=
  r.2.dst.length = m.dst.length ∧ match out with
    | none => r.1 = 0
    | some out => r.1 = out.length ∧ r.2.dst = overwrite m.dst dest out

/-- The loop keeps within the packet and the destination. -/
theorem resolvReadLoop_eq {packet : CStr}
    {jumpMem : ℕ → ℕ → ℕ → NameMem → Except Fault (ℕ × NameMem)}
    (hjump : ∀ pos dest len m, dest + len ≤ m.dst.length →
      ∃ r, jumpMem pos dest len m = .ok r ∧ NameStep dest m (jump pos len) r)
    (fuel reader dest nb : ℕ) (m : NameMem) (hpos : 0 < fuel)
    (hfuel : packet.length < fuel + reader) (hnb : nb ≤ destLen)
    (hroom : dest + (destLen - nb) ≤ m.dst.length) :
    ∃ r, resolvReadLoop packet jumpMem destLen fuel reader dest nb m = .ok r ∧
      r.2.dst.length = m.dst.length ∧
      match resolvReadLabels packet destLen jump fuel reader nb with
      | none => r.1 = none
      | some out => r.1 = some (nb + out.length) ∧ r.2.dst = overwrite m.dst dest out := by
  induction fuel generalizing reader dest nb m with
  | zero => exact absurd hpos (Nat.lt_irrefl 0)
  | succ fuel ih =>
    rw [resolvReadLoop, resolvReadLabels]
    by_cases hend : packet.length ≤ reader
    · rw [if_pos hend, List.getElem?_eq_none hend]
      exact ⟨_, rfl, rfl, rfl⟩
    have hb : packet[reader]? = some packet[reader] := List.getElem?_eq_getElem (by omega)
    generalize packet[reader] = b at hb
    rw [if_neg hend, readByte_eq hb, hb]
    simp only [bind, Except.bind]
    by_cases hc : b &&& 0xc0 = 0xc0
    · -- a pointer
      rw [if_pos hc, if_pos hc]
      by_cases hend1 : packet.length ≤ reader + 1
      · rw [if_pos hend1, List.getElem?_eq_none hend1]
        exact ⟨_, rfl, rfl, rfl⟩
      have hb1 : packet[reader + 1]? = some packet[reader + 1] :=
        List.getElem?_eq_getElem (by omega)
      generalize packet[reader + 1] = b1 at hb1
      rw [if_neg hend1, readByte_eq hb1, hb1]
      simp only
      by_cases hlow : reader < b1.toNat
      · rw [if_pos hlow, if_pos hlow]
        exact ⟨_, rfl, rfl, rfl⟩
      rw [if_neg hlow, if_neg hlow]
      obtain ⟨r, hr, hlen, hstep⟩ :=
        hjump ((b &&& 0x3f).toNat * 256 + b1.toNat) dest (destLen - nb) m hroom
      rw [hr]
      rcases hout : jump ((b &&& 0x3f).toNat * 256 + b1.toNat) (destLen - nb) with
        - | - | ⟨c, cs⟩
      · rw [hout] at hstep
        simp only [if_pos hstep]
        exact ⟨_, rfl, hlen, rfl⟩
      · rw [hout] at hstep
        have hzero : r.1 = 0 := hstep.1
        simp only [if_pos hzero]
        exact ⟨_, rfl, hlen, rfl⟩
      · rw [hout] at hstep
        have hne : r.1 ≠ 0 := by
          rw [hstep.1]
          exact Nat.succ_ne_zero _
        simp only [if_neg hne]
        exact ⟨_, rfl, hlen, congrArg (fun n => some (nb + n)) hstep.1, hstep.2⟩
    rw [if_neg hc, if_neg hc]
    by_cases h0 : b = 0
    · rw [if_pos h0, if_pos h0]
      exact ⟨_, rfl, rfl, rfl, (overwrite_nil _ _).symm⟩
    rw [if_neg h0, if_neg h0]
    by_cases hfit : packet.length ≤ reader + b.toNat ∨ destLen ≤ nb + b.toNat
    · rw [if_pos hfit, if_pos hfit]
      exact ⟨_, rfl, rfl, rfl⟩
    -- a label is copied
    rw [if_neg hfit, if_neg hfit]
    set label := (packet.drop reader).take (b.toNat + 1) with hlabel
    have hll : label.length = b.toNat + 1 := by
      rw [hlabel, List.length_take, List.length_drop]
      omega
    have hput : dest + label.length ≤ m.dst.length := by omega
    have hcopy : memcpy m.dst dest packet reader (b.toNat + 1)
        = .ok (overwrite m.dst dest label) := by
      rw [memcpy, memRead_eq (.inr (by omega))]
      exact memWrite_eq (.inr hput)
    rw [hcopy]
    have hlen := length_overwrite (.inr hput)
    obtain ⟨r, hr, hrlen, hstep⟩ := ih (reader + b.toNat + 1) (dest + b.toNat + 1)
      (nb + b.toNat + 1) { m with dst := overwrite m.dst dest label } (by omega) (by omega)
      (by omega) (by
        show _ ≤ (overwrite m.dst dest label).length
        omega)
    refine ⟨r, hr, hrlen.trans hlen, ?_⟩
    rcases hout : resolvReadLabels packet destLen jump fuel (reader + b.toNat + 1)
        (nb + b.toNat + 1) with - | out
    · rw [hout] at hstep
      exact hstep
    · rw [hout] at hstep
      obtain ⟨hval, hdst⟩ := hstep
      refine ⟨hval.trans (congrArg some ?_), hdst.trans ?_⟩
      · rw [List.length_append]
        omega
      · show overwrite (overwrite m.dst dest label) _ out = _
        rw [Nat.add_assoc, ← hll, overwrite_append (by omega)]

theorem resolvReadCall_eq {packet : CStr} {name dest : ℕ} {m : NameMem}
    (hroom : dest + destLen ≤ m.dst.length)
    {jumpMem : ℕ → ℕ → ℕ → NameMem → Except Fault (ℕ × NameMem)}
    (hjump : ∀ pos dest len m, dest + len ≤ m.dst.length →
      ∃ r, jumpMem pos dest len m = .ok r ∧ NameStep dest m (jump pos len) r) :
    ∃ r, (resolvReadLoop packet jumpMem destLen (packet.length + 1) name dest 0 m
        >>= resolvReadEnd packet name) = .ok r ∧
      NameStep dest m (resolvReadLabels packet destLen jump (packet.length + 1) name 0) r ∧
      (resolvReadLabels packet destLen jump (packet.length + 1) name 0 ≠ none →
        r.2.offset = resolvNameOffset (packet.drop name)) := by
  have hfuel : packet.length < packet.length + 1 + name := by omega
  obtain ⟨⟨n, m'⟩, hrun, hlen, hstep⟩ := resolvReadLoop_eq hjump (packet.length + 1) name dest 0 m
    (Nat.succ_pos _) hfuel (Nat.zero_le _) hroom
  rw [hrun]
  rcases hout : resolvReadLabels packet destLen jump (packet.length + 1) name 0 with - | out
  · rw [hout] at hstep
    obtain rfl : n = none := hstep
    exact ⟨_, rfl, ⟨hlen, rfl⟩, fun h => absurd rfl h⟩
  · rw [hout] at hstep
    obtain ⟨rfl, hdst⟩ : n = some (0 + out.length) ∧ m'.dst = overwrite m.dst dest out := hstep
    refine ⟨(out.length, { m' with offset := resolvNameOffset (packet.drop name) }), ?_,
      ⟨hlen, rfl, hdst⟩, fun _ => rfl⟩
    show (resolvOffsetLoop packet (packet.length + 1) name 0 >>= _) = _
    rw [resolvOffsetLoop_eq packet _ name 0 (Nat.succ_pos _) hfuel, Nat.zero_add, Nat.zero_add]
    rfl

/-- **The function with its memory is the one on lists**: it terminates without a fault. -/
theorem resolvReadNameMem_eq (packet : CStr) (left name dest destLen : ℕ) (m : NameMem)
    (hroom : dest + destLen ≤ m.dst.length) :
    ∃ r, resolvReadNameMem packet left name dest destLen m = .ok r ∧
      NameStep dest m (resolvReadBytes packet left name destLen) r ∧
      (resolvReadBytes packet left name destLen ≠ none →
        r.2.offset = resolvNameOffset (packet.drop name)) := by
  induction left generalizing name dest destLen m with
  | zero =>
    rw [resolvReadNameMem, resolvReadBytes]
    exact resolvReadCall_eq hroom fun _ _ _ m _ => ⟨(0, m), rfl, rfl, rfl⟩
  | succ left ih =>
    rw [resolvReadNameMem, resolvReadBytes]
    refine resolvReadCall_eq hroom fun pos dest len m h => ?_
    obtain ⟨r, hr, hstep, -⟩ := ih pos dest len m h
    exact ⟨r, hr, hstep⟩

end SmartHAProxy
