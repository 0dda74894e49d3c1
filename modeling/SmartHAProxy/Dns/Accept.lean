/-
Whose answers are accepted (resolvers.c).

`dnsAnswers` is the list of the answer records of a packet.  In a valid response
all of them are stored or refresh an item (`resolvAnswers_list`), and each has been
compared with the name before it over the length of its own name (`Checked`).

`resolvValidate_names_iff`: the address records belong to the name asked for, or to
the end of the chain of CNAME records that starts there, exactly when the lengths
are the same.  A name that stops short is accepted.
-/
import Mathlib.Data.List.GetD
import SmartHAProxy.Dns.Response

namespace SmartHAProxy

variable {packet : CStr} {pool : ℕ → Option ResolvRecord} {now maxAnswerRecords : ℕ}

/-! ### The records of a packet -/

/-- An answer record: its owner, its type, the target of a CNAME, and the item. -/
structure DnsAnswer where
  owner : CStr
  type : ℕ
  target : CStr
  item : ResolvRecord

/-- Answer record `i` at position `reader`, and the position behind it. -/
def dnsAnswer (packet : CStr) (pool : ℕ → Option ResolvRecord) (ancount i reader : ℕ) :
    Option (DnsAnswer × ℕ) :=
  match pool i, resolvName packet reader with
  | some mem, some (owner, offset) =>
    match resolvReadRecord packet (reader + offset) with
    | none => none
    | some r =>
      match resolvReadData packet (i + 1 == ancount) r (mem.init owner r) with
      | .error _ => none
      | .ok (item, size) =>
        let target := ((resolvName packet r.data).map Prod.fst).getD []
        some (⟨owner, r.type, target, item⟩, r.data + size)
  | _, _ => none

/-- The answer records from record `i` on, `n` of them. -/
def dnsAnswers (packet : CStr) (pool : ℕ → Option ResolvRecord) (ancount : ℕ) :
    ℕ → ℕ → ℕ → List DnsAnswer
  | 0, _, _ => []
  | n + 1, i, reader =>
    match dnsAnswer packet pool ancount i reader with
    | none => []
    | some (a, reader') => a :: dnsAnswers packet pool ancount n (i + 1) reader'

def dnsQueriedName (packet : CStr) : CStr :=
  ((resolvReadQuestion packet).map Prod.fst).getD []

def dnsAnswersOf (packet : CStr) (pool : ℕ → Option ResolvRecord) : List DnsAnswer :=
  match resolvReadQuestion packet with
  | none => []
  | some (_, _, _, reader) =>
    dnsAnswers packet pool (readN16 packet 6) (readN16 packet 6) 0 reader

/-- `name` is related to the name asked for, `q`, or to the target of the last CNAME
record of the list, and each CNAME record to the name before it. -/
def CnameChain (rel : CStr → CStr → Prop) : CStr → List DnsAnswer → CStr → Prop
  | q, [], name => rel name q
  | q, a :: as, name =>
    if a.type = dnsRtypeCname then rel a.owner q ∧ CnameChain rel a.target as name
    else CnameChain rel q as name

def SameName (a b : CStr) : Prop := isteqi a b = true

def SameLength (a b : CStr) : Prop := a.length = b.length

/-- Every address record has the name asked for, or is at the end of a chain of CNAME
records from there, each of whose names is related to the one before. -/
def NamesChain (rel : CStr → CStr → Prop) (q : CStr) (answers : List DnsAnswer) : Prop :=
  ∀ pre a post, answers = pre ++ a :: post → a.type = dnsRtypeA ∨ a.type = dnsRtypeAaaa →
    SameName a.owner q ∨ CnameChain rel q pre a.owner

/-! ### Comparing names -/

theorem resolvHostnameCmp_iff {name1 name2 : CharBuf} {len : ℕ} :
    resolvHostnameCmp name1 name2 len = true ↔ ∀ i < len, istLc (name1 i) = istLc (name2 i) := by
  simp [resolvHostnameCmp]

def StartsWith (buf : CharBuf) (name : CStr) : Prop := ∀ i < name.length, buf i = name.getD i 0

theorem startsWith_memcpyBuf (buf : CharBuf) (name : CStr) :
    StartsWith (memcpyBuf buf name) name := by
  intro i hi
  rw [memcpyBuf, List.getD_eq_getElem _ _ hi, List.getD_eq_getElem _ _ hi]

theorem startsWith_strcpyBuf (buf : CharBuf) (name : CStr) :
    StartsWith (strcpyBuf buf name) name := by
  intro i hi
  have hi' : i < (name ++ [0]).length := by
    rw [List.length_append]
    omega
  rw [strcpyBuf, memcpyBuf, List.getD_eq_getElem _ _ hi', List.getD_eq_getElem _ _ hi,
    List.getElem_append_left hi]

theorem sameName_of_cmp {buf : CharBuf} {name owner : CStr} (hbuf : StartsWith buf name)
    (hlen : SameLength owner name)
    (hcmp : resolvHostnameCmp buf (bufOf owner) owner.length = true) : SameName owner name := by
  rw [resolvHostnameCmp_iff] at hcmp
  have hmap : owner.map istLc = name.map istLc := by
    apply List.ext_getElem
    · rw [List.length_map, List.length_map]
      exact hlen
    · intro i h1 h2
      rw [List.length_map] at h1 h2
      have h := hcmp i h1
      rw [hbuf i h2, bufOf, List.getD_eq_getElem _ _ h2, List.getD_eq_getElem _ _ h1] at h
      rw [List.getElem_map, List.getElem_map, h]
  rw [SameName, isteqi, hmap, beq_self_eq_true]

theorem SameName.sameLength {a b : CStr} (h : SameName a b) : SameLength a b := by
  rw [SameName, isteqi, beq_iff_eq] at h
  have hlen := congrArg List.length h
  rwa [List.length_map, List.length_map] at hlen

/-! ### The loop over the answers -/

/-- Every record matches the name before it over the length of its own name; `prev`
is what `previous_dname` points to. -/
def Checked : CharBuf → List DnsAnswer → Prop
  | _, [] => True
  | prev, a :: as =>
    resolvHostnameCmp prev (bufOf a.owner) a.owner.length = true ∧
      (a.type = dnsRtypeCname → StartsWith a.item.target a.target) ∧
      Checked (if a.type = dnsRtypeCname then a.item.target else prev) as

theorem Checked.chain_iff {prev : CharBuf} {q : CStr} {pre post : List DnsAnswer} {a : DnsAnswer}
    (h : Checked prev (pre ++ a :: post)) (hprev : StartsWith prev q) :
    CnameChain SameName q pre a.owner ↔ CnameChain SameLength q pre a.owner := by
  induction pre generalizing prev q with
  | nil => exact ⟨SameName.sameLength, fun hlen => sameName_of_cmp hprev hlen h.1⟩
  | cons b pre ih =>
    obtain ⟨hcmp, htarget, hrest⟩ := h
    rw [CnameChain, CnameChain]
    split_ifs with hc
    · rw [if_pos hc] at hrest
      have hown : SameName b.owner q ↔ SameLength b.owner q :=
        ⟨SameName.sameLength, fun hlen => sameName_of_cmp hprev hlen hcmp⟩
      rw [hown, ih hrest (htarget hc)]
    · rw [if_neg hc] at hrest
      exact ih hrest hprev

theorem resolvReadData_cname {last : Bool} {r : DnsRecord} {item item' : ResolvRecord} {size : ℕ}
    (hc : r.type = dnsRtypeCname) (h : resolvReadData packet last r item = .ok (item', size)) :
    ∃ target, (resolvName packet r.data).map Prod.fst = some target ∧
      item'.target = strcpyBuf item.target target := by
  rw [resolvReadData, hc, if_neg (by decide), if_pos rfl] at h
  cases last with
  | true => cases h
  | false =>
    rw [if_neg (by decide)] at h
    split at h
    next => cases h
    next target offset hname =>
      cases h
      exact ⟨target, by rw [hname]; rfl, rfl⟩

/-- **One turn** of the loop: the record is compared, and stored or refreshes an item. -/
theorem resolvAnswer_eq_ok {qtype ancount i : ℕ} {st st' : AnswerState}
    (h : resolvAnswer packet pool now qtype ancount i st = .ok st') :
    ∃ a, dnsAnswer packet pool ancount i st.reader = some (a, st'.reader) ∧
      st'.list = resolvStoreAnswer now st.list a.item ∧
      st'.prev = (if a.type = dnsRtypeCname then a.item.target else st.prev) ∧
      (qtype ≠ dnsRtypeSrv →
        resolvHostnameCmp st.prev (bufOf a.owner) a.owner.length = true) ∧
      (a.type = dnsRtypeCname → StartsWith a.item.target a.target) := by
  simp only [resolvAnswer] at h
  split_ifs at h with hend
  split at h
  next => cases h
  next mem hmem =>
    split at h
    next => cases h
    next owner offset hname =>
      split_ifs at h with hcmp
      split at h
      next => cases h
      next r hr =>
        split at h
        next => cases h
        next item size hdata =>
          cases h
          refine ⟨⟨owner, r.type, ((resolvName packet r.data).map Prod.fst).getD [], item⟩,
            ?_, rfl, rfl, fun hq => ?_, fun hc => ?_⟩
          · simp only [dnsAnswer, hmem, hname, hr, hdata]
          · rw [not_and, Bool.not_eq_false] at hcmp
            exact hcmp hq
          · obtain ⟨target, ht, hitem⟩ := resolvReadData_cname hc hdata
            show StartsWith item.target (((resolvName packet r.data).map Prod.fst).getD [])
            rw [ht, hitem]
            exact startsWith_strcpyBuf _ _

/-- **The loop**: every record of the packet is stored or refreshes an item, after
the comparison. -/
theorem resolvAnswers_list {qtype ancount n i : ℕ} {st st' : AnswerState}
    (h : resolvAnswers packet pool now qtype ancount n i st = (st', none)) :
    st'.list = (dnsAnswers packet pool ancount n i st.reader).foldl
        (fun list a => resolvStoreAnswer now list a.item) st.list ∧
      (qtype ≠ dnsRtypeSrv → Checked st.prev (dnsAnswers packet pool ancount n i st.reader)) := by
  induction n generalizing i st with
  | zero =>
    cases h
    exact ⟨rfl, fun _ => trivial⟩
  | succ n ih =>
    rw [resolvAnswers] at h
    split at h
    next => cases h
    next st₁ hst =>
      obtain ⟨a, ha, hlist, hprev, hcmp, htarget⟩ := resolvAnswer_eq_ok hst
      obtain ⟨hl, hc⟩ := ih h
      simp only [dnsAnswers, ha]
      constructor
      · rw [hl, hlist, List.foldl_cons]
      · intro hq
        refine ⟨hcmp hq, htarget, ?_⟩
        rw [← hprev]
        exact hc hq

/-! ### Valid responses -/

theorem resolvReadHeader_ancount {header header' : DnsHeader}
    (h : resolvReadHeader packet maxAnswerRecords header = (header', none)) :
    header'.ancount = readN16 packet 6 := by
  have hcounts : ∀ {header}, resolvReadCounts packet maxAnswerRecords header = (header', none) →
      header'.ancount = readN16 packet 6 := by
    intro header h
    rw [resolvReadCounts] at h
    dsimp only at h
    split_ifs at h <;> cases h
    rfl
  rw [resolvReadHeader] at h
  dsimp only at h
  split_ifs at h
  · cases h
  · cases h
  · split at h
    next => cases h
    next => exact hcounts h

/-- What is behind a valid response to another query than SRV. -/
theorem resolvValidate_eq_valid {res res' : ResolvResponse}
    (hv : resolvValidateDnsResponse packet maxAnswerRecords now pool res = (res', .valid))
    (hq : res'.query.type ≠ dnsRtypeSrv) :
    ∃ name type cls reader st, resolvReadQuestion packet = some (name, type, cls, reader) ∧
      type ≠ dnsRtypeSrv ∧ res'.answerList = st.list ∧
      resolvAnswers packet pool now type (readN16 packet 6) (readN16 packet 6) 0
        ⟨reader, memcpyBuf res.query.name name, res.answerList⟩ = (st, none) := by
  rw [resolvValidateDnsResponse] at hv
  split at hv
  next => cases hv
  next header hheader =>
    split at hv
    next => cases hv
    next name type cls reader hquestion =>
      dsimp only at hv
      rw [resolvReadHeader_ancount hheader] at hv
      split_ifs at hv with htc hsrv
      · cases hv
      · split at hv
        next => cases hv
        next st hst =>
          cases hv
          exact ⟨name, type, cls, reader, st, hquestion, hsrv, rfl, hst⟩
      · -- a SRV query
        split at hv
        next => cases hv
        next =>
          split at hv
          next => cases hv
          next =>
            split at hv
            next => cases hv
            next =>
              cases hv
              exact absurd (not_not.mp hsrv) hq

/-- **DNS names**: in a valid response to another query than SRV, all the answer
records are stored or refresh an item, and the address records belong to the name
asked for, or to the end of the chain of CNAME records from there, exactly when
every name compared is as long as the one it is compared with. -/
theorem resolvValidate_names_iff {res res' : ResolvResponse}
    (hv : resolvValidateDnsResponse packet maxAnswerRecords now pool res = (res', .valid))
    (hq : res'.query.type ≠ dnsRtypeSrv) :
    res'.answerList = (dnsAnswersOf packet pool).foldl
        (fun list a => resolvStoreAnswer now list a.item) res.answerList ∧
      (NamesChain SameName (dnsQueriedName packet) (dnsAnswersOf packet pool) ↔
        NamesChain SameLength (dnsQueriedName packet) (dnsAnswersOf packet pool)) := by
  obtain ⟨name, type, cls, reader, st, hquestion, hsrv, hlist, hst⟩ :=
    resolvValidate_eq_valid hv hq
  obtain ⟨hl, hchecked⟩ := resolvAnswers_list hst
  have hname : dnsQueriedName packet = name := by
    rw [dnsQueriedName, hquestion]
    rfl
  have hof : dnsAnswersOf packet pool =
      dnsAnswers packet pool (readN16 packet 6) (readN16 packet 6) 0 reader := by
    rw [dnsAnswersOf, hquestion]
  rw [hname, hof, hlist]
  refine ⟨hl, ?_⟩
  -- record by record, the chain is unbroken when the lengths are the same
  have hiff : ∀ pre a post, dnsAnswers packet pool (readN16 packet 6) (readN16 packet 6) 0 reader =
      pre ++ a :: post →
        (CnameChain SameName name pre a.owner ↔ CnameChain SameLength name pre a.owner) := by
    intro pre a post heq
    have hc := hchecked hsrv
    rw [heq] at hc
    exact hc.chain_iff (startsWith_memcpyBuf _ _)
  constructor
  · intro h pre a post heq ht
    exact (h pre a post heq ht).imp_right (hiff pre a post heq).mp
  · intro h pre a post heq ht
    exact (h pre a post heq ht).imp_right (hiff pre a post heq).mpr

/-! ### A name that stops short -/

/-- A response for "www.ab" with one address record for the name `owner`. -/
def dnsPacket (owner : CStr) : CStr :=
  [0, 7, 129, 128, 0, 1, 0, 1, 0, 0, 0, 0] ++
    [3, 119, 119, 119, 2, 97, 98, 0, 0, 1, 0, 1] ++
    owner ++ [0, 1, 0, 1, 0, 0, 0, 60, 0, 4, 192, 0, 2, 1]

def clearRecord : ResolvRecord where
  name := fun _ => 0
  type := 0
  cls := 0
  ttl := 0
  priority := 0
  weight := 0
  port := 0
  dataLen := 0
  address := []
  target := fun _ => 0
  lastSeen := none

def clearResponse : ResolvResponse := ⟨⟨0, 0, 0, 0, 0⟩, ⟨fun _ => 0, 0, 0⟩, []⟩

/-- The memory of every allocation is clear. -/
def clearPool : ℕ → Option ResolvRecord := fun _ => some clearRecord

theorem dnsAnswersOf_single (packet owner : CStr) (type : ℕ)
    (h : (dnsAnswersOf packet clearPool).map (fun a => (a.owner, a.type)) = [(owner, type)]) :
    ∃ a, dnsAnswersOf packet clearPool = [a] ∧ a.owner = owner ∧ a.type = type := by
  obtain ⟨a, ha, heq⟩ := List.map_eq_singleton_iff.mp h
  exact ⟨a, ha, congrArg Prod.fst heq, congrArg Prod.snd heq⟩

/-- An answer whose owner is a pointer to the name asked for. -/
theorem resolvValidate_names_iff_pointer :
    NamesChain SameName (dnsQueriedName (dnsPacket [0xc0, 12]))
      (dnsAnswersOf (dnsPacket [0xc0, 12]) clearPool) := by
  have hv : (resolvValidateDnsResponse (dnsPacket [0xc0, 12]) 8 5 clearPool clearResponse).2 =
      .valid := by decide +kernel
  refine (resolvValidate_names_iff (Prod.ext rfl hv) (by decide +kernel)).2.mpr ?_
  obtain ⟨a, ha, hown, -⟩ := dnsAnswersOf_single (dnsPacket [0xc0, 12])
    [3, 119, 119, 119, 2, 97, 98] 1 (by decide +kernel)
  intro pre b post heq _
  rw [ha] at heq
  obtain ⟨rfl, hb⟩ : pre = [] ∧ b = a := by
    rcases pre with - | ⟨c, pre⟩
    · exact ⟨rfl, (List.cons.inj heq).1.symm⟩
    · simp at heq
  right
  show b.owner.length = (dnsQueriedName (dnsPacket [0xc0, 12])).length
  rw [hb, hown]
  decide +kernel

/-- The answer for "www" is taken for the one for "www.ab". -/
theorem not_resolvValidate_names :
    ¬ ∀ packet maxAnswerRecords now pool res res',
      resolvValidateDnsResponse packet maxAnswerRecords now pool res = (res', .valid) →
        res'.query.type ≠ dnsRtypeSrv →
          NamesChain SameName (dnsQueriedName packet) (dnsAnswersOf packet pool) := by
  intro h
  have hv : (resolvValidateDnsResponse (dnsPacket [3, 119, 119, 119, 0]) 8 5 clearPool
      clearResponse).2 = .valid := by decide +kernel
  have hnames := h _ 8 5 clearPool clearResponse _ (Prod.ext rfl hv) (by decide +kernel)
  obtain ⟨a, ha, hown, htype⟩ := dnsAnswersOf_single (dnsPacket [3, 119, 119, 119, 0])
    [3, 119, 119, 119] 1 (by decide +kernel)
  have hname := hnames [] a [] ha (.inl htype)
  rw [CnameChain, or_self, SameName, hown] at hname
  revert hname
  decide +kernel

end SmartHAProxy
