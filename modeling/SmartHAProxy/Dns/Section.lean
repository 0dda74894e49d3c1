/-
The additional records of a DNS response, as they stand in the packet.

A section is a row of records (`RecordsAt`), each with a name of the standard that
`resolv_read_name` accepts: labels of its own, and maybe a pointer behind them.  The
loop over the additional records moves on to the next record behind an address.
Behind a record of another type it stays on its data, and at a record whose name is
the root it does not move at all (`RecordAt.additionalRead`).  What is read of a
whole section is `dnsAdditionalsRead_section`.
-/
import SmartHAProxy.Dns.Expand
import SmartHAProxy.Dns.Read

namespace SmartHAProxy

/-! ### Records -/

/-- A resource record: the labels of its owner, and the rest. -/
structure AdRecord where
  labels : List CStr
  type : ℕ
  cls : ℕ
  ttl : ℕ
  data : CStr
  deriving DecidableEq

def AdRecord.isAddr (rec : AdRecord) : Bool := rec.type == dnsRtypeA || rec.type == dnsRtypeAaaa

def AdRecord.isRoot (rec : AdRecord) : Bool := rec.labels.isEmpty

/-- The record stands at position `pos` of the packet, with the labels `own` there and a pointer
behind them if `ptr`, and the next one at `next`. -/
def RecordAt (packet : CStr) (pos : ℕ) (own : List CStr) (ptr : Bool) (rec : AdRecord)
    (next : ℕ) : Prop :=
  ∃ r, NameAt packet 101 pos own ptr rec.labels ∧
    (dnLabels rec.labels).length ≤ dnsMaxNameSize ∧
    resolvReadRecord packet (pos + nameSize own ptr) = some r ∧
    (r.type = rec.type ∧ r.cls = rec.cls ∧ r.ttl = rec.ttl) ∧
    r.bytes packet = rec.data ∧ r.dataLen = rec.data.length ∧ next = r.data + r.dataLen

/-- What is asked of a record: labels of up to 63 bytes, and addresses of their size. -/
structure WellFormedRecord (rec : AdRecord) : Prop where
  short : ∀ l ∈ rec.labels, l ≠ [] ∧ l.length ≤ 63
  size : (rec.type = dnsRtypeA → rec.data.length = 4) ∧
    (rec.type = dnsRtypeAaaa → rec.data.length = 16)

/-- The records that stand one after the other from position `pos` on, with the forms of their
names: the labels in place, and whether a pointer follows. -/
inductive RecordsAt (packet : CStr) : ℕ → List (List CStr × Bool) → List AdRecord → Prop
  | nil {pos : ℕ} : RecordsAt packet pos [] []
  | cons {pos next : ℕ} {own : List CStr} {ptr : Bool} {forms : List (List CStr × Bool)}
      {rec : AdRecord} {rest : List AdRecord} :
      RecordAt packet pos own ptr rec next → WellFormedRecord rec →
      RecordsAt packet next forms rest → RecordsAt packet pos ((own, ptr) :: forms) (rec :: rest)

/-- The scan of the offset finds the end of each of the names. -/
def ScansWell (forms : List (List CStr × Bool)) : Prop :=
  ∀ f ∈ forms, ¬ StopsEarly (dnLabels f.1) f.2

/-- No record of another type keeps the loop from an address: such a record has a name and no data,
or is the last one; or its name is the root, and so is the name of the next address. -/
def Passable : List AdRecord → Prop
  | [] => True
  | rec :: rest =>
    if rec.isRoot then rec.isAddr ∨ ∀ a ∈ (rest.filter AdRecord.isAddr).head?, a.isRoot
    else if rec.isAddr then Passable rest
    else rest = [] ∨ rec.data = [] ∧ Passable rest

/-- The addresses in front of the first one whose name is the root. -/
def namedAddrs (rs : List AdRecord) : List AdRecord :=
  (rs.filter AdRecord.isAddr).takeWhile fun rec => !rec.isRoot

theorem RecordsAt.wellFormed {packet : CStr} {pos : ℕ} {forms : List (List CStr × Bool)}
    {rs : List AdRecord} (h : RecordsAt packet pos forms rs) : ∀ rec ∈ rs, WellFormedRecord rec := by
  induction h with
  | nil => exact fun rec hrec => absurd hrec List.not_mem_nil
  | cons _ hw _ ih => exact List.forall_mem_cons.mpr ⟨hw, ih⟩

/-! ### Reading a record -/

/-- The item is made from the record, whatever the memory has held. -/
def MadeFrom (rec : AdRecord) (x : ℕ × ResolvRecord) : Prop :=
  ∃ (mem : ResolvRecord) (r : DnsRecord),
    (r.type = rec.type ∧ r.cls = rec.cls ∧ r.ttl = rec.ttl) ∧ r.dataLen = rec.data.length ∧
      x = ((dnLabels rec.labels).length,
        { mem.init (dnLabels rec.labels) r with address := rec.data })

section Turn

variable {packet : CStr} {pos next : ℕ} {own : List CStr} {ptr : Bool} {rec : AdRecord}

theorem RecordAt.resolvName_eq (h : RecordAt packet pos own ptr rec next)
    (hscan : ¬ StopsEarly (dnLabels own) ptr) :
    pos < packet.length ∧ ∃ offset r, resolvName packet pos
        = (if rec.isRoot then none else some (dnLabels rec.labels, offset)) ∧
      resolvReadRecord packet (pos + offset) = some r ∧
      (r.type = rec.type ∧ r.cls = rec.cls ∧ r.ttl = rec.ttl) ∧
      r.bytes packet = rec.data ∧ r.dataLen = rec.data.length ∧ next = r.data + r.dataLen := by
  obtain ⟨r, hname, hfit, hrec, hfields, hbytes, hlen, hnext⟩ := h
  obtain ⟨b, hb⟩ := hname.exists_byte
  refine ⟨(List.getElem?_eq_some_iff.mp hb).1, nameSize own ptr, r, ?_, hrec, hfields, hbytes, hlen,
    hnext⟩
  -- the offset is right
  have hoff : resolvNameOffset (packet.drop pos) = nameSize own ptr := by
    obtain ⟨rest, hdrop, hend⟩ := hname.drop_eq
    rw [hdrop]
    exact (resolvNameOffset_iff hend (dnLabels own)).mpr hscan
  have hread : resolvReadBytes packet 101 pos dnsMaxNameSize = some (dnLabels rec.labels) :=
    (resolvReadBytes_iff packet 101 pos dnsMaxNameSize _).mpr ⟨own, ptr, _, hname, rfl, hfit⟩
  rw [resolvName, resolvReadName, hread, hoff]
  rcases hl : rec.labels with - | ⟨l, ls⟩
  · rw [AdRecord.isRoot, hl]
    rfl
  · rw [AdRecord.isRoot, hl]
    rfl

/-- **One turn** at a record of the section. -/
theorem RecordAt.additionalRead (h : RecordAt packet pos own ptr rec next)
    (hw : WellFormedRecord rec) (hscan : ¬ StopsEarly (dnLabels own) ptr) (mem : ResolvRecord) :
    ∃ item reader, dnsAdditionalRead packet (some mem) pos = .ok (item, reader) ∧
      if rec.isRoot then item = none ∧ reader = pos
      else if rec.isAddr then (∃ x, item = some x ∧ MadeFrom rec x) ∧ reader = next
      else item = none ∧ (rec.data = [] → reader = next) := by
  obtain ⟨hpos, offset, r, hname, hrec, hfields, hbytes, hlen, hnext⟩ := h.resolvName_eq hscan
  rw [dnsAdditionalRead, if_neg (Nat.not_le_of_lt hpos)]
  simp only [hname]
  by_cases hroot : rec.isRoot
  · simp only [if_pos hroot]
    exact ⟨none, pos, rfl, rfl, rfl⟩
  simp only [if_neg hroot, hrec]
  have ha : ¬ (r.type = dnsRtypeA ∧ r.dataLen ≠ 4) := by
    rintro ⟨htype, hne⟩
    exact hne (hlen.trans (hw.size.1 (hfields.1.symm.trans htype)))
  have haaaa : ¬ (r.type = dnsRtypeAaaa ∧ r.dataLen ≠ 16) := by
    rintro ⟨htype, hne⟩
    exact hne (hlen.trans (hw.size.2 (hfields.1.symm.trans htype)))
  rw [if_neg ha, if_neg haaaa]
  have hisaddr : rec.isAddr = true ↔ r.type = dnsRtypeA ∨ r.type = dnsRtypeAaaa := by
    rw [AdRecord.isAddr, Bool.or_eq_true, beq_iff_eq, beq_iff_eq, hfields.1]
  by_cases haddr : rec.isAddr
  · simp only [if_pos (hisaddr.mp haddr), if_pos haddr]
    refine ⟨_, _, rfl, ⟨_, rfl, mem, r, hfields, hlen, ?_⟩, hnext.symm⟩
    rw [hbytes]
  · simp only [if_neg (mt hisaddr.mpr haddr), if_neg haddr]
    refine ⟨none, r.data, rfl, rfl, fun hdata => ?_⟩
    rw [hnext, hlen, hdata]
    rfl

end Turn

/-! ### Reading a section -/

section Run

variable {packet : CStr} (mem : ℕ → ResolvRecord)

theorem dnsAdditionalsRead_root {pos next : ℕ} {own : List CStr} {ptr : Bool} {rec : AdRecord}
    (h : RecordAt packet pos own ptr rec next) (hw : WellFormedRecord rec)
    (hscan : ¬ StopsEarly (dnLabels own) ptr) (hroot : rec.isRoot) (n j : ℕ) :
    (dnsAdditionalsRead packet (fun j => some (mem j)) n j pos).1 = [] := by
  induction n generalizing j with
  | zero => rfl
  | succ n ih =>
    obtain ⟨item, reader, hrun, hstay⟩ := h.additionalRead hw hscan (mem j)
    rw [if_pos hroot] at hstay
    obtain ⟨rfl, rfl⟩ := hstay
    rw [dnsAdditionalsRead, hrun]
    exact ih (j + 1)

/-- **The records that are read** are the addresses in front of the first one whose name is the
root, if the section can be passed. -/
theorem dnsAdditionalsRead_section {pos : ℕ} {forms : List (List CStr × Bool)}
    {rs : List AdRecord} (h : RecordsAt packet pos forms rs) (hscan : ScansWell forms)
    (hpass : Passable rs) (j : ℕ) :
    List.Forall₂ MadeFrom (namedAddrs rs)
      (dnsAdditionalsRead packet (fun j => some (mem j)) rs.length j pos).1 := by
  induction h generalizing j with
  | nil => exact .nil
  | @cons pos next own ptr forms rec rest hrec hw _ ih =>
    obtain ⟨hp, hscan⟩ := List.forall_mem_cons.mp hscan
    rw [Passable] at hpass
    by_cases hroot : rec.isRoot
    · -- nothing is read from here on
      rw [dnsAdditionalsRead_root mem hrec hw hp hroot]
      rw [if_pos hroot] at hpass
      have hnone : namedAddrs (rec :: rest) = [] := by
        rw [namedAddrs]
        by_cases haddr : rec.isAddr
        · rw [List.filter_cons_of_pos haddr, List.takeWhile_cons, hroot]
          rfl
        · rw [List.filter_cons_of_neg haddr]
          have hnext := hpass.resolve_left haddr
          rcases hf : rest.filter AdRecord.isAddr with - | ⟨a, as⟩
          · rfl
          · rw [hf] at hnext
            rw [List.takeWhile_cons, hnext a rfl]
            rfl
      rw [hnone]
      exact .nil
    rw [if_neg hroot] at hpass
    obtain ⟨item, reader, hrun, hturn⟩ := hrec.additionalRead hw hp (mem j)
    rw [if_neg hroot] at hturn
    rw [List.length_cons, dnsAdditionalsRead, hrun]
    by_cases haddr : rec.isAddr
    · rw [if_pos haddr] at hpass hturn
      obtain ⟨⟨x, rfl, hx⟩, rfl⟩ := hturn
      have hcons : namedAddrs (rec :: rest) = rec :: namedAddrs rest := by
        rw [namedAddrs, List.filter_cons_of_pos haddr, List.takeWhile_cons,
          if_pos (by simpa using hroot)]
        rfl
      rw [hcons]
      exact .cons hx (ih hscan hpass (j + 1))
    · rw [if_neg haddr] at hpass hturn
      obtain ⟨rfl, hreader⟩ := hturn
      have hskip : namedAddrs (rec :: rest) = namedAddrs rest := by
        rw [namedAddrs, List.filter_cons_of_neg haddr]
        rfl
      rw [hskip]
      rcases hpass with rfl | ⟨hdata, hpass⟩
      · exact .nil
      · obtain rfl := hreader hdata
        exact ih hscan hpass (j + 1)

theorem passable_filter (rs : List AdRecord) : Passable (rs.filter AdRecord.isAddr) := by
  induction rs with
  | nil => trivial
  | cons rec rest ih =>
    by_cases haddr : rec.isAddr
    · rw [List.filter_cons_of_pos haddr, Passable]
      split_ifs
      · exact .inl haddr
      · exact ih
    · rw [List.filter_cons_of_neg haddr]
      exact ih

theorem namedAddrs_filter (rs : List AdRecord) :
    namedAddrs (rs.filter AdRecord.isAddr) = namedAddrs rs := by
  rw [namedAddrs, List.filter_filter]
  simp only [Bool.and_self]
  rfl

end Run

end SmartHAProxy
