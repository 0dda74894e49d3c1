/-
Reading a DNS response, apart from storing it.

The records of a response are merged into the list of the resolution while the
packet is still being read.  Reading does not depend on the list: a packet is a
list of answers and a list of additional records, up to the first defect
(`dnsRead`).

Main result: `resolvValidate_answerList`, the list as it is after storing.
-/
import Mathlib.Algebra.Ring.Nat
import SmartHAProxy.Dns.Response

namespace SmartHAProxy

/-! ### Reading without storing -/

section Reading

variable (packet : CStr) (pool : ℕ → Option ResolvRecord)

/-- One answer: the item, the position behind the record and the next name that is due. -/
def dnsAnswerRead (qtype ancount i reader : ℕ) (prev : CharBuf) :
    Except RslvCause (ResolvRecord × ℕ × CharBuf) :=
  if packet.length ≤ reader then .error .invalid
  else
    match pool i with
    | none => .error .invalid
    | some mem =>
      match resolvName packet reader with
      | none => .error .invalid
      | some (owner, offset) =>
        if qtype ≠ dnsRtypeSrv ∧ resolvHostnameCmp prev (bufOf owner) owner.length = false
        then .error (resolvMismatch i)
        else
          match resolvReadRecord packet (reader + offset) with
          | none => .error .invalid
          | some r =>
            match resolvReadData packet (i + 1 == ancount) r (mem.init owner r) with
            | .error e => .error e
            | .ok (item, size) => .ok
                (item, r.data + size,
                  if r.type = dnsRtypeCname then item.target else prev)

/-- The answers up to the first defect, and the position behind them or the defect. -/
def dnsAnswersRead (qtype ancount : ℕ) : ℕ → ℕ → ℕ → CharBuf → List ResolvRecord × (ℕ ⊕ RslvCause)
  | 0, _, reader, _ => ([], .inl reader)
  | n + 1, i, reader, prev =>
    match dnsAnswerRead packet pool qtype ancount i reader prev with
    | .error e => ([], .inr e)
    | .ok (item, reader, prev) =>
      let r := dnsAnswersRead qtype ancount n (i + 1) reader prev
      (item :: r.1, r.2)

/-- One additional record: the length of its name and the item, if it is an address, and the
position of the next one. -/
def dnsAdditionalRead (mem : Option ResolvRecord) (reader : ℕ) :
    Except RslvCause (Option (ℕ × ResolvRecord) × ℕ) :=
  if packet.length ≤ reader then .error .invalid
  else
    match mem with
    | none => .error .invalid
    | some mem =>
      match resolvName packet reader with
      | none => .ok (none, reader)
      | some (owner, offset) =>
        match resolvReadRecord packet (reader + offset) with
        | none => .error .invalid
        | some r =>
          if r.type = dnsRtypeA ∧ r.dataLen ≠ 4 then .error .invalid
          else if r.type = dnsRtypeAaaa ∧ r.dataLen ≠ 16 then .error .invalid
          else if r.type = dnsRtypeA ∨ r.type = dnsRtypeAaaa then
            .ok (some (owner.length, { mem.init owner r with address := r.bytes packet }),
              r.data + r.dataLen)
          else .ok (none, r.data)

/-- The additional addresses up to the first defect, and the defect. -/
def dnsAdditionalsRead : ℕ → ℕ → ℕ → List (ℕ × ResolvRecord) × Option RslvCause
  | 0, _, _ => ([], none)
  | n + 1, j, reader =>
    match dnsAdditionalRead packet (pool j) reader with
    | .error e => ([], some e)
    | .ok (item, reader) =>
      let r := dnsAdditionalsRead n (j + 1) reader
      (item.toList ++ r.1, r.2)

end Reading

structure DnsRead where
  answers : List ResolvRecord
  additionals : List (ℕ × ResolvRecord)
  defect : Option RslvCause

/-- The authority and the additional records of a SRV response. -/
def dnsReadRest (packet : CStr) (pool : ℕ → Option ResolvRecord) (header : DnsHeader)
    (answers : List ResolvRecord) (reader : ℕ) : DnsRead :=
  match resolvAuthority packet header.nscount reader with
  | none => ⟨answers, [], some .invalid⟩
  | some reader =>
    let r := dnsAdditionalsRead packet (fun j => pool (header.ancount + j)) header.arcount 0
      reader
    ⟨answers, r.1, r.2⟩

/-- The records of a packet that are merged into the list, and the defect for which the packet is
rejected. -/
def dnsRead (packet : CStr) (maxAnswerRecords : ℕ) (pool : ℕ → Option ResolvRecord)
    (res : ResolvResponse) : DnsRead :=
  match resolvReadHeader packet maxAnswerRecords res.header with
  | (_, some e) => ⟨[], [], some e⟩
  | (header, none) =>
    match resolvReadQuestion packet with
    | none => ⟨[], [], some .invalid⟩
    | some (name, type, _, reader) =>
      if type ≠ dnsRtypeSrv ∧ readN16 packet 2 / 512 % 2 = 1 then ⟨[], [], some .truncated⟩
      else
        match dnsAnswersRead packet pool type header.ancount header.ancount 0 reader
          (memcpyBuf res.query.name name) with
        | (answers, .inr e) => ⟨answers, [], some e⟩
        | (answers, .inl reader) =>
          if type ≠ dnsRtypeSrv then ⟨answers, [], none⟩
          else dnsReadRest packet pool header answers reader

/-! ### Storing what is read -/

/-- The answers are stored in their order. -/
def storeAnswers (now : ℕ) (list : List ResolvAnswerItem) (answers : List ResolvRecord) :
    List ResolvAnswerItem := answers.foldl (resolvStoreAnswer now) list

def storeAdditionals (now : ℕ) (list : List ResolvAnswerItem) (items : List (ℕ × ResolvRecord)) :
    List ResolvAnswerItem :=
  items.foldl (fun list item => resolvStoreAdditional now item.1 list item.2) list

section Storing

variable (packet : CStr) (pool : ℕ → Option ResolvRecord) (now : ℕ)

theorem resolvAnswer_eq_read (qtype ancount i : ℕ) (st : AnswerState) :
    resolvAnswer packet pool now qtype ancount i st
      = (dnsAnswerRead packet pool qtype ancount i st.reader st.prev).map fun r =>
          ⟨r.2.1, r.2.2, resolvStoreAnswer now st.list r.1⟩ := by
  rw [resolvAnswer, dnsAnswerRead]
  by_cases hend : packet.length ≤ st.reader
  · rw [if_pos hend, if_pos hend]
    rfl
  rw [if_neg hend, if_neg hend]
  rcases hmem : pool i with - | mem
  · rfl
  rcases hname : resolvName packet st.reader with - | ⟨owner, offset⟩
  · rfl
  simp only
  split_ifs
  · rfl
  rcases hrec : resolvReadRecord packet (st.reader + offset) with - | r
  · rfl
  simp only
  rcases hdata : resolvReadData packet (i + 1 == ancount) r (mem.init owner r) with e | ⟨item, size⟩
  · rfl
  · rfl

theorem resolvAnswers_eq_read (qtype ancount n i : ℕ) (st : AnswerState) :
    let r := dnsAnswersRead packet pool qtype ancount n i st.reader st.prev
    let s := resolvAnswers packet pool now qtype ancount n i st
    s.1.list = storeAnswers now st.list r.1 ∧
      match r.2 with
      | .inr e => s.2 = some e
      | .inl reader => s.2 = none ∧ s.1.reader = reader := by
  induction n generalizing i st with
  | zero => exact ⟨rfl, rfl, rfl⟩
  | succ n ih =>
    intro r s
    have hs : s = resolvAnswers packet pool now qtype ancount (n + 1) i st := rfl
    have hr : r = dnsAnswersRead packet pool qtype ancount (n + 1) i st.reader st.prev := rfl
    rw [resolvAnswers, resolvAnswer_eq_read] at hs
    rw [dnsAnswersRead] at hr
    rcases hread : dnsAnswerRead packet pool qtype ancount i st.reader st.prev with
      e | ⟨item, reader, prev⟩
    · rw [hread] at hs hr
      rw [hs, hr]
      exact ⟨rfl, rfl⟩
    · rw [hread] at hs hr
      rw [hs, hr]
      exact ih (i + 1) ⟨reader, prev, resolvStoreAnswer now st.list item⟩

theorem resolvAdditional_eq_read (mem : Option ResolvRecord) (st : AdditionalState) :
    match dnsAdditionalRead packet mem st.reader with
    | .error e => resolvAdditional packet mem now st = .error e
    | .ok (item, reader) => ∃ saved, resolvAdditional packet mem now st
        = .ok ⟨reader, saved, storeAdditionals now st.list item.toList⟩ := by
  rw [resolvAdditional.eq_def, dnsAdditionalRead.eq_def]
  by_cases hend : packet.length ≤ st.reader
  · rw [if_pos hend, if_pos hend]
  rw [if_neg hend, if_neg hend]
  rcases mem with - | mem
  · rfl
  rcases hname : resolvName packet st.reader with - | ⟨owner, offset⟩
  · exact ⟨st.saved, rfl⟩
  rcases hrec : resolvReadRecord packet (st.reader + offset) with - | r
  · simp only [hrec]
  simp only [hrec]
  by_cases ha : r.type = dnsRtypeA ∧ r.dataLen ≠ 4
  · rw [if_pos ha, if_pos ha]
  rw [if_neg ha, if_neg ha]
  by_cases haaaa : r.type = dnsRtypeAaaa ∧ r.dataLen ≠ 16
  · rw [if_pos haaaa, if_pos haaaa]
  rw [if_neg haaaa, if_neg haaaa]
  by_cases hboth : r.type = dnsRtypeA ∨ r.type = dnsRtypeAaaa
  · rw [if_pos hboth, if_pos hboth]
    exact ⟨st.saved + 1, rfl⟩
  · rw [if_neg hboth, if_neg hboth]
    exact ⟨st.saved, rfl⟩

theorem resolvAdditionals_eq_read (n j : ℕ) (st : AdditionalState) :
    let r := dnsAdditionalsRead packet pool n j st.reader
    let s := resolvAdditionals packet pool now n j st
    s.1.list = storeAdditionals now st.list r.1 ∧ s.2 = r.2 := by
  induction n generalizing j st with
  | zero => exact ⟨rfl, rfl⟩
  | succ n ih =>
    intro r s
    have hs : s = resolvAdditionals packet pool now (n + 1) j st := rfl
    have hr : r = dnsAdditionalsRead packet pool (n + 1) j st.reader := rfl
    rw [resolvAdditionals] at hs
    rw [dnsAdditionalsRead] at hr
    have hturn := resolvAdditional_eq_read packet now (pool j) st
    rcases hread : dnsAdditionalRead packet (pool j) st.reader with e | ⟨item, reader⟩
    · rw [hread] at hturn hr
      rw [hturn] at hs
      rw [hs, hr]
      exact ⟨rfl, rfl⟩
    · rw [hread] at hturn hr
      obtain ⟨saved, hturn⟩ := hturn
      rw [hturn] at hs
      rw [hs, hr]
      obtain ⟨hlist, herr⟩ := ih (j + 1) ⟨reader, saved, storeAdditionals now st.list item.toList⟩
      refine ⟨?_, herr⟩
      rw [hlist]
      show storeAdditionals now (storeAdditionals now st.list _) _
        = storeAdditionals now _ (_ ++ _)
      rw [storeAdditionals, storeAdditionals, storeAdditionals, List.foldl_append]

/-- **The list after a call** is what storing the records of the packet makes of it, and the call
fails exactly on a defect. -/
theorem resolvValidate_answerList (maxAnswerRecords : ℕ) (res : ResolvResponse) :
    let r := dnsRead packet maxAnswerRecords pool res
    let out := resolvValidateDnsResponse packet maxAnswerRecords now pool res
    out.1.answerList
        = storeAdditionals now (storeAnswers now res.answerList r.answers) r.additionals ∧
      (out.2 = .valid ↔ r.defect = none) := by
  intro r out
  have hr : r = dnsRead packet maxAnswerRecords pool res := rfl
  have hout : out = resolvValidateDnsResponse packet maxAnswerRecords now pool res := rfl
  rw [dnsRead] at hr
  rw [resolvValidateDnsResponse] at hout
  have hfail {e : RslvCause} : (RslvResp.failed e = .valid ↔ some e = none) :=
    iff_of_false (fun h => nomatch h) (fun h => nomatch h)
  rcases hhead : resolvReadHeader packet maxAnswerRecords res.header with ⟨header, - | e⟩
  swap
  · rw [hhead] at hr hout
    rw [hr, hout]
    exact ⟨rfl, hfail⟩
  rw [hhead] at hr hout
  rcases hq : resolvReadQuestion packet with - | ⟨name, type, cls, reader⟩
  · rw [hq] at hr hout
    rw [hr, hout]
    exact ⟨rfl, hfail⟩
  rw [hq] at hr hout
  simp only at hr hout
  by_cases htrunc : type ≠ dnsRtypeSrv ∧ readN16 packet 2 / 512 % 2 = 1
  · rw [if_pos htrunc] at hr hout
    rw [hr, hout]
    exact ⟨rfl, hfail⟩
  rw [if_neg htrunc] at hr hout
  have hread := resolvAnswers_eq_read packet pool now type header.ancount header.ancount 0
    ⟨reader, memcpyBuf res.query.name name, res.answerList⟩
  simp only at hread
  generalize hrun : resolvAnswers packet pool now type header.ancount header.ancount 0
    ⟨reader, memcpyBuf res.query.name name, res.answerList⟩ = s at hread hout
  generalize hpar : dnsAnswersRead packet pool type header.ancount header.ancount 0 reader
    (memcpyBuf res.query.name name) = q at hread hr
  obtain ⟨⟨sreader, sprev, slist⟩, serr⟩ := s
  obtain ⟨answers, reader' | e⟩ := q
  swap
  · -- a defect among the answers
    obtain ⟨rfl, rfl⟩ : slist = storeAnswers now res.answerList answers ∧ serr = some e := hread
    rw [hr, hout]
    exact ⟨rfl, hfail⟩
  obtain ⟨rfl, rfl, rfl⟩ :
    slist = storeAnswers now res.answerList answers ∧ serr = none ∧ sreader = reader' := hread
  simp only at hr hout
  by_cases hsrv : type ≠ dnsRtypeSrv
  · rw [if_pos hsrv] at hr hout
    rw [hr, hout]
    exact ⟨rfl, iff_of_true rfl rfl⟩
  rw [if_neg hsrv] at hr hout
  rw [dnsReadRest] at hr
  rcases hauth : resolvAuthority packet header.nscount sreader with - | reader''
  · rw [hauth] at hr hout
    rw [hr, hout]
    exact ⟨rfl, hfail⟩
  rw [hauth] at hr hout
  simp only at hr hout
  have hmore := resolvAdditionals_eq_read packet (fun j => pool (header.ancount + j)) now
    header.arcount 0 ⟨reader'', 0, storeAnswers now res.answerList answers⟩
  simp only at hmore
  generalize hrun' : resolvAdditionals packet (fun j => pool (header.ancount + j)) now
    header.arcount 0 ⟨reader'', 0, storeAnswers now res.answerList answers⟩ = s' at hmore hout
  obtain ⟨⟨areader, asaved, alist⟩, aerr⟩ := s'
  obtain ⟨rfl, rfl⟩ := hmore
  rw [hr, hout]
  rcases hdef : (dnsAdditionalsRead packet (fun j => pool (header.ancount + j)) header.arcount 0
    reader'').2 with - | e
  · exact ⟨rfl, iff_of_true rfl rfl⟩
  · exact ⟨rfl, hfail⟩

end Storing

/-! ### Attached records -/

theorem getElem?_modify_ite {α : Type*} (list : List α) (f : α → α) (k i : ℕ) :
    (list.modify k f)[i]? = if k = i then list[i]?.map f else list[i]? := by
  rw [List.getElem?_modify]
  by_cases hk : k = i
  · simp only [if_pos hk]
    rfl
  · simp only [if_neg hk]
    exact Option.map_id'

theorem map_storeAdditionals (now : ℕ) (list : List ResolvAnswerItem)
    (items : List (ℕ × ResolvRecord)) :
    (storeAdditionals now list items).map (·.toResolvRecord) = list.map (·.toResolvRecord) := by
  have hmodify (l : List ResolvAnswerItem) (k : ℕ) (f : ResolvAnswerItem → ResolvAnswerItem)
      (hf : ∀ tmp, (f tmp).toResolvRecord = tmp.toResolvRecord) :
      (l.modify k f).map (·.toResolvRecord) = l.map (·.toResolvRecord) := by
    apply List.ext_getElem?
    intro i
    rw [List.getElem?_map, List.getElem?_map, getElem?_modify_ite]
    split_ifs
    · rw [Option.map_map]
      exact congrArg (fun g => Option.map g _) (funext hf)
    · rfl
  induction items generalizing list with
  | nil => rfl
  | cons item items ih =>
    refine (ih _).trans ?_
    show (resolvStoreAdditional now item.1 list item.2).map _ = _
    rw [resolvStoreAdditional]
    split
    · exact hmodify _ _ _ fun _ => rfl
    · split
      · exact hmodify _ _ _ fun _ => rfl
      · rfl

end SmartHAProxy
