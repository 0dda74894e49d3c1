/-
Validating a DNS response (resolvers.c).

`resolv_validate_dns_response` reads the header, the question and the records of
a packet.  Each answer record becomes an item of the answer list of the resolution,
or refreshes the item that is the same; the additional records of a SRV query are
attached to the items they belong to.  For other queries, the owner of each
answer is compared with the name asked for or the last CNAME target.

An item is allocated from a pool whose memory is not cleared: `pool` is what the
memory of each allocation holds, or nothing when it fails.  What
`resolv_check_response` does at the end of a valid response is left out.
-/
import SmartHAProxy.Dns.Name

namespace SmartHAProxy

/-! ### The state of a resolution -/

/-- `DNS_RTYPE_*`. -/
def dnsRtypeA : ℕ := 1
def dnsRtypeCname : ℕ := 5
def dnsRtypeAaaa : ℕ := 28
def dnsRtypeSrv : ℕ := 33

/-- `RSLV_RESP_*`, the errors of `resolv_validate_dns_response`. -/
inductive RslvCause
  | invalid
  | error
  | nxDomain
  | refused
  | ancountZero
  | cnameError
  | truncated
  | queryCountError
  deriving DecidableEq, Repr

/-- The result of `resolv_validate_dns_response`. -/
inductive RslvResp
  | valid
  | failed (cause : RslvCause)
  deriving DecidableEq, Repr

/-- `struct resolv_answer_item` without what is attached to it.  The address is the
4 or 16 bytes that its type says. -/
structure ResolvRecord where
  name : CharBuf
  type : ℕ
  cls : ℕ
  ttl : ℕ
  priority : ℕ
  weight : ℕ
  port : ℕ
  dataLen : ℕ
  address : CStr
  target : CharBuf
  lastSeen : Option ℕ

/-- `struct resolv_answer_item`. -/
structure ResolvAnswerItem extends ResolvRecord where
  arItem : Option ResolvRecord

/-- `struct dns_header`, without the flags. -/
structure DnsHeader where
  id : ℕ
  qdcount : ℕ
  ancount : ℕ
  nscount : ℕ
  arcount : ℕ

/-- `struct resolv_query_item`. -/
structure ResolvQueryItem where
  name : CharBuf
  type : ℕ
  cls : ℕ

/-- `struct resolv_response` and the only query record. -/
structure ResolvResponse where
  header : DnsHeader
  query : ResolvQueryItem
  answerList : List ResolvAnswerItem

/-! ### Reading the packet -/

/-- The number of 2 bytes at position `p`. -/
def readN16 (packet : CStr) (p : ℕ) : ℕ :=
  (packet.getD p 0).toNat * 256 + (packet.getD (p + 1) 0).toNat

/-- A name as the callers of `resolv_read_name` take it. -/
def resolvName (packet : CStr) (reader : ℕ) : Option (CStr × ℕ) :=
  match resolvReadName packet reader dnsMaxNameSize with
  | some ([], _) => none
  | r => r

/-- What the reply code of the flags stands for. -/
def resolvReplyCode (flags : ℕ) : Option RslvCause :=
  if flags % 16 = 0 then none
  else if flags % 16 = 3 then some .nxDomain
  else if flags % 16 = 5 then some .refused
  else some .error

def resolvReadCounts (packet : CStr) (maxAnswerRecords : ℕ) (header : DnsHeader) :
    DnsHeader × Option RslvCause :=
  if packet.length ≤ 6 then (header, some .invalid)
  else
    let header := { header with qdcount := readN16 packet 4 }
    if readN16 packet 4 ≠ 1 then (header, some .queryCountError)
    else if packet.length ≤ 8 then (header, some .invalid)
    else
      let header := { header with ancount := readN16 packet 6 }
      if readN16 packet 6 = 0 then (header, some .ancountZero)
      else if maxAnswerRecords < readN16 packet 6 then (header, some .invalid)
      else if packet.length ≤ 10 then (header, some .invalid)
      else
        let header := { header with nscount := readN16 packet 8 }
        if packet.length ≤ 12 then (header, some .invalid)
        else ({ header with arcount := readN16 packet 10 }, none)

/-- The header, and the error that ends the function. -/
def resolvReadHeader (packet : CStr) (maxAnswerRecords : ℕ) (header : DnsHeader) :
    DnsHeader × Option RslvCause :=
  if packet.length ≤ 2 then (header, some .invalid)
  else
    let header := { header with id := readN16 packet 0 }
    if packet.length ≤ 4 then (header, some .invalid)
    else
      match resolvReplyCode (readN16 packet 2) with
      | some e => (header, some e)
      | none => resolvReadCounts packet maxAnswerRecords header

/-- The only question: its name, type and class, and the position behind it. -/
def resolvReadQuestion (packet : CStr) : Option (CStr × ℕ × ℕ × ℕ) :=
  match resolvName packet 12 with
  | none => none
  | some (name, offset) =>
    let reader := 12 + offset
    if packet.length ≤ reader + 2 then none
    else if packet.length ≤ reader + 4 then none
    else some (name, readN16 packet reader, readN16 packet (reader + 2), reader + 4)

structure DnsRecord where
  type : ℕ
  cls : ℕ
  ttl : ℕ
  dataLen : ℕ
  data : ℕ

/-- The type, class, TTL and data length of a record, and where its data is. -/
def resolvReadRecord (packet : CStr) (reader : ℕ) : Option DnsRecord :=
  if packet.length ≤ reader then none
  else if packet.length < reader + 2 then none
  else if packet.length < reader + 4 then none
  else if packet.length < reader + 8 then none
  else if packet.length < reader + 10 then none
  else
    let dataLen := readN16 packet (reader + 8)
    if packet.length < reader + 10 + dataLen then none
    else some
      { type := readN16 packet reader
        cls := readN16 packet (reader + 2)
        ttl := readN16 packet (reader + 4) * 65536 + readN16 packet (reader + 6)
        dataLen := dataLen
        data := reader + 10 }

def DnsRecord.bytes (packet : CStr) (r : DnsRecord) : CStr := (packet.drop r.data).take r.dataLen

/-- A new item from the memory `mem`, with the name `owner`. -/
def ResolvRecord.init (mem : ResolvRecord) (owner : CStr) (r : DnsRecord) : ResolvRecord :=
  { mem with
    name := strcpyBuf mem.name owner
    type := r.type
    cls := r.cls
    ttl := r.ttl
    dataLen := r.dataLen }

/-- The data of an answer record: the item and the number of bytes to move forward. -/
def resolvReadData (packet : CStr) (last : Bool) (r : DnsRecord) (item : ResolvRecord) :
    Except RslvCause (ResolvRecord × ℕ) :=
  if r.type = dnsRtypeA then
    if r.dataLen ≠ 4 then .error .invalid
    else .ok ({ item with address := r.bytes packet }, r.dataLen)
  else if r.type = dnsRtypeCname then
    if last then .error .cnameError
    else
      match resolvName packet r.data with
      | none => .error .invalid
      | some (target, _) =>
        .ok ({ item with target := strcpyBuf item.target target }, r.dataLen)
  else if r.type = dnsRtypeSrv then
    if r.dataLen ≤ 6 then .error .invalid
    else
      match resolvName packet (r.data + 6) with
      | none => .error .invalid
      | some (target, offset) =>
        .ok ({ item with
          priority := readN16 packet r.data
          weight := readN16 packet (r.data + 2)
          port := readN16 packet (r.data + 4)
          dataLen := target.length
          target := strcpyBuf item.target target }, 6 + offset)
  else if r.type = dnsRtypeAaaa then
    if r.dataLen ≠ 16 then .error .invalid
    else .ok ({ item with address := r.bytes packet }, r.dataLen)
  else .ok (item, r.dataLen)

/-! ### The answers -/

/-- The stored item is the same as the new one. -/
def sameAnswer (item tmp : ResolvRecord) : Bool :=
  tmp.type == item.type &&
    if tmp.type = dnsRtypeA then item.address == tmp.address
    else if tmp.type = dnsRtypeAaaa then item.address == tmp.address
    else if tmp.type = dnsRtypeSrv then
      item.dataLen == tmp.dataLen && resolvHostnameCmp item.target tmp.target item.dataLen &&
        item.port == tmp.port
    else false

def refreshAnswer (now : ℕ) (item : ResolvRecord) (tmp : ResolvAnswerItem) : ResolvAnswerItem :=
  { tmp with
    weight := if tmp.type = dnsRtypeSrv then item.weight else tmp.weight
    lastSeen := some now }

/-- The first item that is the same is refreshed, or the new one is stored. -/
def resolvStoreAnswer (now : ℕ) (list : List ResolvAnswerItem) (item : ResolvRecord) :
    List ResolvAnswerItem :=
  match list.findIdx? fun tmp => sameAnswer item tmp.toResolvRecord with
  | some k => list.modify k (refreshAnswer now item)
  | none => list ++ [{ item with lastSeen := some now, arItem := none }]

/-- The state of the loop over the answers: `prev` is `previous_dname`. -/
structure AnswerState where
  reader : ℕ
  prev : CharBuf
  list : List ResolvAnswerItem

/-- The owner of record `i` is not the name that is due. -/
def resolvMismatch (i : ℕ) : RslvCause := if i = 0 then .invalid else .cnameError

/-- One turn of the loop, for record `i` of `ancount`. -/
def resolvAnswer (packet : CStr) (pool : ℕ → Option ResolvRecord) (now qtype ancount i : ℕ)
    (st : AnswerState) : Except RslvCause AnswerState :=
  if packet.length ≤ st.reader then .error .invalid
  else
    match pool i with
    | none => .error .invalid
    | some mem =>
      match resolvName packet st.reader with
      | none => .error .invalid
      | some (owner, offset) =>
        if qtype ≠ dnsRtypeSrv ∧ resolvHostnameCmp st.prev (bufOf owner) owner.length = false
        then .error (resolvMismatch i)
        else
          match resolvReadRecord packet (st.reader + offset) with
          | none => .error .invalid
          | some r =>
            match resolvReadData packet (i + 1 == ancount) r (mem.init owner r) with
            | .error e => .error e
            | .ok (item, size) => .ok
                { reader := r.data + size
                  prev := if r.type = dnsRtypeCname then item.target else st.prev
                  list := resolvStoreAnswer now st.list item }

/-- The loop over the answers from record `i` on, `n` of them. -/
def resolvAnswers (packet : CStr) (pool : ℕ → Option ResolvRecord) (now qtype ancount : ℕ) :
    ℕ → ℕ → AnswerState → AnswerState × Option RslvCause
  | 0, _, st => (st, none)
  | n + 1, i, st =>
    match resolvAnswer packet pool now qtype ancount i st with
    | .error e => (st, some e)
    | .ok st' => resolvAnswers packet pool now qtype ancount n (i + 1) st'

/-! ### The authority and the additional records -/

/-- The loop that skips the authority records. -/
def resolvAuthority (packet : CStr) : ℕ → ℕ → Option ℕ
  | 0, reader => some reader
  | n + 1, reader =>
    match resolvName packet reader with
    | none => resolvAuthority packet n reader
    | some (_, offset) =>
      if packet.length ≤ reader + offset + 10 then none
      else
        let len := readN16 packet (reader + offset + 8)
        if packet.length ≤ reader + offset + 10 + len then none
        else resolvAuthority packet n (reader + offset + 10 + len)

/-- The SRV item has the additional record already, seen before now. -/
def sameAdditional (now len : ℕ) (item : ResolvRecord) (tmp : ResolvAnswerItem) : Bool :=
  tmp.type == dnsRtypeSrv &&
    match tmp.arItem with
    | none => false
    | some ar =>
      ar.type == item.type && ar.lastSeen != some now && len == tmp.dataLen &&
        resolvHostnameCmp item.name tmp.target tmp.dataLen &&
        (ar.type == dnsRtypeA || ar.type == dnsRtypeAaaa) && item.address == ar.address

/-- The SRV item waits for an additional record of this name. -/
def wantsAdditional (item : ResolvRecord) (tmp : ResolvAnswerItem) : Bool :=
  tmp.type == dnsRtypeSrv && tmp.arItem.isNone &&
    resolvHostnameCmp tmp.target item.name tmp.dataLen

/-- The additional record refreshes an item, is attached to one or is dropped. -/
def resolvStoreAdditional (now len : ℕ) (list : List ResolvAnswerItem) (item : ResolvRecord) :
    List ResolvAnswerItem :=
  match list.findIdx? (sameAdditional now len item) with
  | some k => list.modify k fun tmp =>
    { tmp with arItem := tmp.arItem.map fun ar => { ar with lastSeen := some now } }
  | none =>
    match list.findIdx? (wantsAdditional item) with
    | some k => list.modify k fun tmp => { tmp with arItem := some { item with lastSeen := some now } }
    | none => list

/-- The state of the loop over the additional records. -/
structure AdditionalState where
  reader : ℕ
  saved : ℕ
  list : List ResolvAnswerItem

/-- One turn of the loop, with the memory `mem`.  Behind a record of another type,
the reader is still on its data. -/
def resolvAdditional (packet : CStr) (mem : Option ResolvRecord) (now : ℕ)
    (st : AdditionalState) : Except RslvCause AdditionalState :=
  if packet.length ≤ st.reader then .error .invalid
  else
    match mem with
    | none => .error .invalid
    | some mem =>
      match resolvName packet st.reader with
      | none => .ok st
      | some (owner, offset) =>
        match resolvReadRecord packet (st.reader + offset) with
        | none => .error .invalid
        | some r =>
          if r.type = dnsRtypeA ∧ r.dataLen ≠ 4 then .error .invalid
          else if r.type = dnsRtypeAaaa ∧ r.dataLen ≠ 16 then .error .invalid
          else if r.type = dnsRtypeA ∨ r.type = dnsRtypeAaaa then
            let item := { mem.init owner r with address := r.bytes packet }
            .ok
              { reader := r.data + r.dataLen
                saved := st.saved + 1
                list := resolvStoreAdditional now owner.length st.list item }
          else .ok { st with reader := r.data }

/-- The loop over the additional records; `pool` is the memory of the next ones. -/
def resolvAdditionals (packet : CStr) (pool : ℕ → Option ResolvRecord) (now : ℕ) :
    ℕ → ℕ → AdditionalState → AdditionalState × Option RslvCause
  | 0, _, st => (st, none)
  | n + 1, j, st =>
    match resolvAdditional packet (pool j) now st with
    | .error e => (st, some e)
    | .ok st' => resolvAdditionals packet pool now n (j + 1) st'

/-! ### The whole packet -/

/-- `resolv_validate_dns_response`, up to `resolv_check_response`. -/
def resolvValidateDnsResponse (packet : CStr) (maxAnswerRecords now : ℕ)
    (pool : ℕ → Option ResolvRecord) (res : ResolvResponse) : ResolvResponse × RslvResp :=
  match resolvReadHeader packet maxAnswerRecords res.header with
  | (header, some e) => ({ res with header := header }, .failed e)
  | (header, none) =>
    match resolvReadQuestion packet with
    | none => ({ res with header := header }, .failed .invalid)
    | some (name, type, cls, reader) =>
      let query : ResolvQueryItem := ⟨memcpyBuf res.query.name name, type, cls⟩
      if type ≠ dnsRtypeSrv ∧ readN16 packet 2 / 512 % 2 = 1 then
        (⟨header, query, res.answerList⟩, .failed .truncated)
      else
        match resolvAnswers packet pool now type header.ancount header.ancount 0
          ⟨reader, query.name, res.answerList⟩ with
        | (st, some e) => (⟨header, query, st.list⟩, .failed e)
        | (st, none) =>
          if type ≠ dnsRtypeSrv then
            (⟨{ header with arcount := header.ancount }, query, st.list⟩, .valid)
          else
            match resolvAuthority packet header.nscount st.reader with
            | none => (⟨header, query, st.list⟩, .failed .invalid)
            | some reader =>
              match resolvAdditionals packet (fun j => pool (header.ancount + j)) now
                header.arcount 0 ⟨reader, 0, st.list⟩ with
              | (ad, some e) => (⟨header, query, ad.list⟩, .failed e)
              | (ad, none) =>
                (⟨{ header with arcount := ad.saved }, query, ad.list⟩, .valid)

end SmartHAProxy
