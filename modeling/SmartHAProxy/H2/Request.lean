/-
HTTP/2 requests become HTX messages (h2.c).

The list of headers comes from the HPACK decoder: a name is a string, or the
number of a pseudo-header.  One loop checks the headers and appends the regular
ones to the message; the first of them ends the pseudo-headers and makes the
start line.  Cookies are joined at the end.

The message starts out empty.  A request is accepted when the function returns 1,
which is `some` here; `none` stands for -1, and for a process that stops in a
`BUG_ON`.
-/
import Mathlib.Algebra.Ring.Int.Defs
import SmartHAProxy.Http.Normalize

namespace SmartHAProxy

/-! ### The list of headers -/

/-- `H2_PHDR_IDX_*`.  The bits of `fields` are numbered by them. -/
def h2PhdrNone : ℕ := 0
def h2PhdrAuth : ℕ := 1
def h2PhdrMeth : ℕ := 2
def h2PhdrPath : ℕ := 3
def h2PhdrSchm : ℕ := 4
def h2PhdrStat : ℕ := 5
def h2PhdrHost : ℕ := 6
def h2PhdrProt : ℕ := 7
def h2PhdrNumEntries : ℕ := 8

/-- The name of a header: a string, or the number of a pseudo-header. -/
inductive H2Name
  | literal (n : CStr)
  | indexed (idx : ℕ)
  deriving DecidableEq, Repr

/-- `struct http_hdr`. -/
structure H2Hdr where
  n : H2Name
  v : CStr
  deriving DecidableEq, Repr

/-- `n.len == 0`: the end of the list. -/
def H2Hdr.isEnd (e : H2Hdr) : Bool := e.n == .literal [] || e.n == .indexed 0

/-- The headers before the end of the list. -/
def h2List (list : List H2Hdr) : List H2Hdr := list.takeWhile fun e => !e.isEnd

def h2StrToPhdr (n : CStr) : ℤ :=
  if n.head? = some 58 then
    if n = bytes ":path" then h2PhdrPath
    else if n = bytes ":method" then h2PhdrMeth
    else if n = bytes ":scheme" then h2PhdrSchm
    else if n = bytes ":status" then h2PhdrStat
    else if n = bytes ":authority" then h2PhdrAuth
    else if n = bytes ":protocol" then h2PhdrProt
    else -1
  else 0

def H2Hdr.phdr (e : H2Hdr) : ℤ :=
  match e.n with
  | .literal n => h2StrToPhdr n
  | .indexed idx => idx

/-! ### Checks on bytes -/

/-- `ist_find_ctl`: the string from its first control character on. -/
def istFindCtl (v : CStr) : Option CStr :=
  match v.dropWhile fun c => 32 ≤ c with
  | [] => none
  | c :: cs => some (c :: cs)

/-- `has_forbidden_char`: NUL, LF or CR from a place of the string on. -/
def hasForbiddenChar (start : CStr) : Bool := start.any fun c => c == 0 || c == 10 || c == 13

def httpValidateScheme : CStr → Bool
  | [] => false
  | c :: cs => isAlpha c && cs.all fun d => isAlpha d || isDigit d || d == 43 || d == 45 || d == 46

/-- The characters of a name: no upper case, up to "Y", and a token. -/
def h2NameChar (c : UInt8) : Bool := !(c - 65 < 25) && httpIsToken c

/-! ### Content-Length -/

/-- The number that digits stand for, unless it needs more than 64 bits. -/
def clDigits : ℕ → CStr → Option ℕ
  | cl, [] => some cl
  | cl, c :: cs =>
    if (2 ^ 64 - 1) / 10 < cl then none
    else if 2 ^ 64 ≤ cl * 10 + (c.toNat - 48) then none
    else clDigits (cl * 10 + (c.toNat - 48)) cs

/-- The loop of `h2_parse_cont_len_header` over the values `s` of a header, with
the flag `H2_MSGF_BODY_CL`, the length and the value so far. -/
def contLenLoop (bodyCl : Bool) (bodyLen : ℕ) (value : CStr) (s : CStr) :
    Option (Bool × ℕ × CStr) :=
  match s with
  | [] => some (bodyCl, bodyLen, value)
  | c :: cs =>
    if httpIsLws c then contLenLoop bodyCl bodyLen value cs
    else if !isDigit c then none
    else
      let word := (c :: cs).takeWhile isDigit
      match clDigits 0 word, _h : (cs.dropWhile isDigit).dropWhile httpIsLws with
      | none, _ => none
      | some cl, [] => if bodyCl ∧ cl ≠ bodyLen then none else some (true, cl, word)
      | some cl, d :: rest =>
        if d ≠ 44 then none
        else if bodyCl ∧ cl ≠ bodyLen then none
        else contLenLoop true cl word rest
termination_by s.length
decreasing_by
  · simp
  · have h1 := (List.dropWhile_suffix isDigit (l := cs)).length_le
    have h2 := (List.dropWhile_suffix httpIsLws (l := cs.dropWhile isDigit)).length_le
    rw [_h] at h2
    simp only [List.length_cons] at h1 h2 ⊢
    omega

/-- `H2_MSGF_*`. -/
structure H2Msgf where
  body : Bool := false
  bodyCl : Bool := false
  bodyTunnel : Bool := false
  bodylessRsp : Bool := false
  extConnect : Bool := false
  deriving DecidableEq, Repr

/-- `h2_parse_cont_len_header`: the flags, the length and the value, and whether
the header is the first one, to be indexed. -/
def h2ParseContLenHeader (msgf : H2Msgf) (value : CStr) (bodyLen : ℕ) :
    Option (H2Msgf × ℕ × CStr × Bool) :=
  (contLenLoop msgf.bodyCl bodyLen value value).map fun (cl, len, word) =>
    ({ msgf with bodyCl := cl }, len, word, !msgf.bodyCl)

/-! ### The start line -/

/-- `istcat`: at most `count` bytes. -/
def istcat (count : ℕ) (dst src : CStr) : CStr := dst ++ src.take (count - dst.length)

/-- The absolute form of the target, made in the trash. -/
def h2AbsoluteUri (trash : ℕ) (schm auth path : CStr) : CStr :=
  let uri := istcat trash (istcat trash schm (bytes "://")) auth
  if path = bytes "*" then uri else istcat trash uri path

/-- The flags of a scheme, and whether it is an error. -/
def h2SchemeFlags (schm : CStr) : HtxSlFlags × Bool :=
  if isteqi schm (bytes "http") then ({ hasSchm := true, schmHttp := true }, false)
  else if isteqi schm (bytes "https") then ({ hasSchm := true, schmHttps := true }, false)
  else ({ hasSchm := true }, !httpValidateScheme schm)

/-- The first half of `h2_prepare_htx_reqline`: which pseudo-headers there have to
be.  Returns the flags, a parsing error, the method and the flags of the message. -/
def h2ReqlineMethod (fields : List ℕ) (phdr : ℕ → CStr) (msgf : H2Msgf) :
    Option (HtxSlFlags × Bool × CStr × H2Msgf) :=
  if h2PhdrMeth ∈ fields ∧ phdr h2PhdrMeth = bytes "CONNECT" then
    if h2PhdrProt ∈ fields then
      -- extended CONNECT: no body, even though the stream stays open
      if h2PhdrSchm ∉ fields then none
      else if h2PhdrPath ∉ fields then none
      else if h2PhdrAuth ∉ fields then none
      else
        let (flags, err) := h2SchemeFlags (phdr h2PhdrSchm)
        some (flags, err, bytes "GET",
          { msgf with extConnect := true, body := false, bodyTunnel := true })
    else if h2PhdrSchm ∈ fields then none
    else if h2PhdrPath ∈ fields then none
    else if h2PhdrAuth ∉ fields then none
    else some ({}, false, phdr h2PhdrMeth, { msgf with bodyTunnel := true })
  else if ¬(h2PhdrMeth ∈ fields ∧ h2PhdrSchm ∈ fields ∧ h2PhdrPath ∈ fields) then none
  else
    let (flags, err) := h2SchemeFlags (phdr h2PhdrSchm)
    some (flags, err, phdr h2PhdrMeth, msgf)

def h2PathOk (path : CStr) : Bool := path.head? == some 47 || path == bytes "*"

/-- The target and the flags that go with its form. -/
def h2ReqlineUri (trash : ℕ) (fields : List ℕ) (phdr : ℕ → CStr) (flags : HtxSlFlags) :
    CStr × HtxSlFlags :=
  if ¬flags.hasSchm then (phdr h2PhdrAuth, { flags with hasAuthority := true })
  else if h2PhdrAuth ∈ fields then
    (h2AbsoluteUri trash (phdr h2PhdrSchm) (phdr h2PhdrAuth) (phdr h2PhdrPath),
      { flags with
        hasAuthority := true
        normalizedUri := flags.schmHttp || flags.schmHttps })
  else (phdr h2PhdrPath, flags)

def h2PrepareHtxReqline (trash : ℕ) (fields : List ℕ) (phdr : ℕ → CStr) (htx : Htx)
    (msgf : H2Msgf) : Option (Htx × H2Msgf) :=
  match h2ReqlineMethod fields phdr msgf with
  | none => none
  | some (flags, err, meth, msgf) =>
    let (uri, flags) := h2ReqlineUri trash fields phdr flags
    if h2PhdrPath ∈ fields ∧ ¬h2PathOk (phdr h2PhdrPath) then none
    else if meth = [] then none
    else if uri = [] then none
    else
      let err := err || meth.any (fun c => !httpIsToken c) ||
        uri.any (fun c => httpIsLws c || httpIsCtl c)
      let sl : HtxSl := ⟨{ flags with ver11 := true, xferLen := true }, findHttpMeth meth,
        meth, uri, bytes "HTTP/2.0"⟩
      (htxAddStline { htx with parsingError := htx.parsingError || err } sl).map fun htx =>
        (htx, { msgf with bodylessRsp := msgf.bodylessRsp || sl.meth == .head })

/-! ### The request -/

/-- The variables of `h2_make_htx_request`: `clen` is its `HTX_SL_F_CLEN`, and the
chain of the cookies through the list is kept as a list of its own. -/
structure H2ReqState where
  fields : List ℕ
  phdrVal : ℕ → CStr
  htx : Htx
  msgf : H2Msgf
  bodyLen : ℕ
  clen : Bool
  cookies : List CStr

/-- The start of the loop on an empty message. -/
def H2ReqState.init (size : ℕ) (body : Bool) (bodyLen : ℕ) : H2ReqState :=
  ⟨[], fun _ => [], htxReset size, { body := body }, bodyLen, false, []⟩

/-- A pseudo-header in the loop: neither repeated nor behind a regular header. -/
def h2PseudoHdr (st : H2ReqState) (phdr : ℕ) (v : CStr) : Option H2ReqState :=
  if phdr ∈ st.fields ∨ h2PhdrNone ∈ st.fields then none
  else some { st with
    fields := phdr :: st.fields
    phdrVal := fun p => if p = phdr then v else st.phdrVal p }

/-- The first regular header: the start line, and the host if there is an authority. -/
def h2StartRegular (trash : ℕ) (st : H2ReqState) : Option H2ReqState :=
  if h2PhdrNone ∈ st.fields then some st
  else
    match h2PrepareHtxReqline trash st.fields st.phdrVal st.htx st.msgf with
    | none => none
    | some (htx, msgf) =>
      if h2PhdrAuth ∈ st.fields then
        (htxAddHeader htx (bytes "host") (st.phdrVal h2PhdrAuth)).map fun htx =>
          { st with fields := h2PhdrHost :: h2PhdrNone :: st.fields, htx := htx, msgf := msgf }
      else some { st with fields := h2PhdrNone :: st.fields, htx := htx, msgf := msgf }

def h2Forbidden : List CStr :=
  [bytes "connection", bytes "proxy-connection", bytes "keep-alive", bytes "upgrade",
    bytes "transfer-encoding"]

/-- A regular header behind the checks on host and content-length. -/
def h2AddHdr (st : H2ReqState) (n v : CStr) : Option H2ReqState :=
  if n ∈ h2Forbidden then none
  else if n = bytes "te" ∧ v ≠ bytes "trailers" then none
  else if n = bytes "cookie" then some { st with cookies := st.cookies ++ [v] }
  else (htxAddHeader st.htx n v).map fun htx => { st with htx := htx }

/-- A regular header in the loop, once there is a start line. -/
def h2RegularHdr (st : H2ReqState) (n v : CStr) : Option H2ReqState :=
  if n = bytes "host" then
    if h2PhdrHost ∈ st.fields then some st
    else h2AddHdr { st with fields := h2PhdrHost :: st.fields } n v
  else if n = bytes "content-length" then
    match h2ParseContLenHeader st.msgf v st.bodyLen with
    | none => none
    | some (msgf, bodyLen, v, first) =>
      let st := { st with msgf := msgf, bodyLen := bodyLen, clen := true }
      if first then h2AddHdr st n v else some st
  else h2AddHdr st n v

/-- The check on names, which starts behind the colon of a pseudo-header. -/
def h2BadName (e : H2Hdr) : Bool :=
  match e.n with
  | .literal n => !(n.drop (if e.phdr = 0 then 0 else 1)).all h2NameChar
  | .indexed _ => false

def h2RequestHdr (trash : ℕ) (st : H2ReqState) (e : H2Hdr) : Option H2ReqState :=
  if h2BadName e then none
  else if (istFindCtl e.v).any hasForbiddenChar then none
  else if 0 < e.phdr ∧ e.phdr < h2PhdrNumEntries then h2PseudoHdr st e.phdr.toNat e.v
  else
    match e.n with
    | .indexed _ => none
    | .literal n =>
      if e.phdr ≠ 0 then none
      else (h2StartRegular trash st).bind fun st => h2RegularHdr st n e.v

def h2RequestLoop (trash : ℕ) (st : H2ReqState) (list : List H2Hdr) : Option H2ReqState :=
  list.foldlM (h2RequestHdr trash) st

/-- The other values of a cookie header, while they fit in `fs` bytes. -/
def h2JoinCookies (fs : ℕ) : ℕ → Htx → List CStr → Option Htx
  | _, htx, [] => some htx
  | tl, htx, v :: vs =>
    if fs < tl + (v.length + 2) then none
    else h2JoinCookies fs (tl + (v.length + 2))
      (htxExtendTail htx (tl + (v.length + 2)) (bytes "; " ++ v)) vs

def h2AddCookies (htx : Htx) : List CStr → Option Htx
  | [] => some htx
  | v :: vs =>
    match htxAddHeader htx (bytes "cookie") v with
    | none => none
    | some htx => h2JoinCookies (htxFreeDataSpace htx + v.length) v.length htx vs

/-- `sl->flags |= sl_flags`. -/
def h2SetSlFlags (htx : Htx) (clen bodyless connUpg : Bool) : Htx :=
  match htx.blks with
  | ⟨info, .sl sl⟩ :: blks =>
    { htx with blks := ⟨info, .sl { sl with flags := { sl.flags with
      clen := sl.flags.clen || clen
      bodyless := sl.flags.bodyless || bodyless
      connUpg := sl.flags.connUpg || connUpg } }⟩ :: blks }
  | _ => htx

def h2AddUpgrade (htx : Htx) (msgf : H2Msgf) (prot : CStr) : Option Htx :=
  if msgf.extConnect then
    (htxAddHeader htx (bytes "upgrade") prot).bind fun htx =>
      htxAddHeader htx (bytes "connection") (bytes "upgrade")
  else some htx

/-- The host, if there was no regular header. -/
def h2AddHost (htx : Htx) (fields : List ℕ) (auth : CStr) : Option Htx :=
  if h2PhdrAuth ∈ fields ∧ h2PhdrHost ∉ fields then htxAddHeader htx (bytes "host") auth
  else some htx

/-- `h2_make_htx_request` behind the start line, up to the end of the headers. -/
def h2FinishHeaders (st : H2ReqState) : Option (Htx × H2Msgf) :=
  let msgf :=
    if st.msgf.bodyTunnel then { st.msgf with body := false, bodyCl := false } else st.msgf
  let bodyless := !msgf.body || (msgf.bodyCl && st.bodyLen == 0) || msgf.bodyTunnel
  let htx := { st.htx with eom := st.htx.eom || bodyless }
  (h2AddUpgrade htx msgf (st.phdrVal h2PhdrProt)).bind fun htx =>
    (h2AddHost (h2SetSlFlags htx st.clen bodyless msgf.extConnect) st.fields
        (st.phdrVal h2PhdrAuth)).bind fun htx =>
      (h2AddCookies htx st.cookies).bind fun htx =>
        (htxAddEndof htx).map fun htx => (htx, msgf)

/-- The start line of a request without regular headers. -/
def h2LateReqline (trash : ℕ) (st : H2ReqState) : Option H2ReqState :=
  if h2PhdrNone ∈ st.fields then some st
  else (h2PrepareHtxReqline trash st.fields st.phdrVal st.htx st.msgf).map
    fun (htx, msgf) => { st with htx := htx, msgf := msgf }

/-- `h2_make_htx_request` on an empty message of `size` bytes, with the flag
`H2_MSGF_BODY` as its caller sets it.  Returns the message, the flags and `*body_len`. -/
def h2MakeHtxRequest (trash : ℕ) (stale : ℕ → CStr) (fuel size : ℕ) (body : Bool) (bodyLen : ℕ)
    (list : List H2Hdr) : Option (Htx × H2Msgf × ℕ) :=
  (h2RequestLoop trash (.init size body bodyLen) (h2List list)).bind fun st =>
    if h2PhdrStat ∈ st.fields then none
    else
      (h2LateReqline trash st).bind fun st =>
        (h2FinishHeaders st).bind fun (htx, msgf) =>
          (if h2PhdrSchm ∈ st.fields then httpSchemeBasedNormalize stale fuel htx
            else some htx).map fun htx => (htx, msgf, st.bodyLen)

end SmartHAProxy
