/-
The host headers and the authority of the URI (http_htx.c).

A change of the URI is copied to the host headers, and a change of a host header
to the URI.  `http_update_host` walks over the host headers with a context, and
`http_replace_header_value`, which it calls for each, puts the context back on the
first one.

`hostRuns_agree` is about every run of the operations: the walk ends, and the
headers agree with the URI, as long as the steps meet `HostOp.Sound`.  With two
host headers neither holds.
-/
import SmartHAProxy.Uri.Parser

namespace SmartHAProxy

/-! ### The operations -/

/-- `http_parse_authority` of a fresh parser, without the user info. -/
def httpAuthority (uri : CStr) : CStr := (httpUriAuthority uri).2.1

/-- `URI_PARSER_FORMAT_EMPTY`, `URI_PARSER_FORMAT_ASTERISK` and `URI_PARSER_FORMAT_ABSPATH`. -/
def uriNoAuthority (uri : CStr) : Bool :=
  match uri with
  | [] => true
  | c :: _ => c == 42 || c == 47

def httpSetSlFlags (htx : Htx) (f : HtxSlFlags → HtxSlFlags) : Htx :=
  match htx.blks with
  | ⟨info, .sl sl⟩ :: blks => { htx with blks := ⟨info, .sl { sl with flags := f sl.flags }⟩ :: blks }
  | _ => htx

/-- The flags that `http_update_host` sets for a URI that has an authority. -/
def hostFlags (meth : HttpMeth) (uri : CStr) (flags : HtxSlFlags) : HtxSlFlags :=
  if meth = .connect then { flags with hasAuthority := true }
  else
    let h := 4 < uri.length && (uri.headD 0 ||| 0x20) == 104
    let colon := uri.getD 4 0 == 58
    { flags with
      hasAuthority := true
      hasSchm := true
      schmHttp := flags.schmHttp || (h && colon)
      schmHttps := flags.schmHttps || (h && !colon) }

/-- The value for the host headers: the whole URI for CONNECT. -/
def hostAuthority (meth : HttpMeth) (uri : CStr) : CStr :=
  if meth = .connect then uri else httpAuthority uri

/-- The loop of `http_update_host`.  `none`: it takes more than `fuel` turns. -/
def updateHosts (authority : CStr) : ℕ → Htx → Option HttpHdrCtx → Option (Htx × Bool)
  | 0, _, _ => none
  | fuel + 1, htx, ctx =>
    match httpFindHeader htx (bytes "host") ctx true with
    | none => some (htx, true)
    | some c =>
      match httpReplaceHeaderValue htx c authority with
      | (htx', none) => some (htx', false)
      | (htx', some c') => updateHosts authority fuel htx' (some c')

/-- `http_update_host`, for the start line `sl` of the message. -/
def httpUpdateHost (fuel : ℕ) (htx : Htx) (sl : HtxSl) (uri : CStr) : Option (Htx × Bool) :=
  if uriNoAuthority uri then
    some (httpSetSlFlags htx fun flags => { flags with hasAuthority := false }, true)
  else
    let htx' := httpSetSlFlags htx (hostFlags sl.meth uri)
    let authority := hostAuthority sl.meth uri
    if sl.meth ≠ .connect ∧ authority = [] then some (htx', false)
    else updateHosts authority fuel htx' none

def httpReplaceReqUri (fuel : ℕ) (htx : Htx) (uri : CStr) : Option (Htx × Bool) :=
  match httpGetStline htx with
  | none => some (htx, false)
  | some sl =>
    match httpReplaceStline htx sl.p1 uri sl.p3 with
    | none => some (htx, false)
    | some htx' =>
      match httpGetStline htx' with
      | none => some (htx', false)
      | some sl' => httpUpdateHost fuel htx' sl' uri

/-- `htx_replace_header`.  The lengths are not checked. -/
def htxReplaceHeader (htx : Htx) (i : ℕ) (name value : CStr) : Option Htx :=
  match htx.blks[i]? with
  | none => none
  | some b =>
    let newsz := name.length + value.length
    if htxGetBlkType b ≠ htxBlkHdr then none
    else if htxNoExpansion htx newsz (htxGetBlksz b) then none
    else some { htx with
      data := htx.data + newsz - htxGetBlksz b
      blks := htx.blks.set i
        ⟨(htxGetBlkType b * 2 ^ 28 + value.length * 2 ^ 8 + name.length) % 2 ^ 32,
          .bytes (name.map istLc ++ value)⟩ }

/-- `http_replace_header`: the block of the context, whose value is NULL, when it
succeeds.  The message may have changed when it fails. -/
def httpReplaceHeader (htx : Htx) (ctx : HttpHdrCtx) (name value : CStr) :
    Htx × Option (Option ℕ) :=
  match htxReplaceHeader htx ctx.blk name value with
  | none => (htx, none)
  | some htx1 =>
    match httpGetStline htx1 with
    | some sl =>
      if sl.flags.hasAuthority ∧ isteqi name (bytes "host") then
        match httpUpdateAuthority htx1 sl value with
        | none => (htx1, none)
        | some htx2 =>
          (htx2, some ((httpFindHeader htx2 (bytes "host") none true).map HttpHdrCtx.blk))
      else (htx1, some (some ctx.blk))
    | none => (htx1, some (some ctx.blk))

/-- The operations.  `http_update_host` is called with the start line of the message. -/
inductive HostOp
  | updateHost (uri : CStr)
  | replaceReqUri (uri : CStr)
  | replaceHeader (ctx : HttpHdrCtx) (name value : CStr)
  | replaceHeaderValue (ctx : HttpHdrCtx) (data : CStr)

/-- The message behind an operation and whether it succeeds.  `none`: it does not
end within `fuel` turns of its loop. -/
def HostOp.exec (fuel : ℕ) (htx : Htx) : HostOp → Option (Htx × Bool)
  | updateHost uri =>
    match httpGetStline htx with
    | none => some (htx, false)
    | some sl => httpUpdateHost fuel htx sl uri
  | replaceReqUri uri => httpReplaceReqUri fuel htx uri
  | replaceHeader ctx name value =>
    let r := httpReplaceHeader htx ctx name value
    some (r.1, r.2.isSome)
  | replaceHeaderValue ctx data =>
    let r := httpReplaceHeaderValue htx ctx data
    some (r.1, r.2.isSome)

/-! ### Messages and runs -/

/-- A request: one start line and the headers `hdrs`, whose names are in lower
case, before the end of the headers. -/
structure Htx.IsReq (htx : Htx) (sl : HtxSl) (hdrs : List (CStr × CStr)) : Prop where
  holds : ∃ tl, htx.Holds sl hdrs (eohBlk :: tl)
  lower : ∀ h ∈ hdrs, h.1.map istLc = h.1

def Htx.hosts (htx : Htx) : List CStr :=
  (htx.headers.filter fun h => isteqi h.1 (bytes "host")).map Prod.snd

/-- Every host header is the authority of the URI. -/
def Htx.HostsAgree (htx : Htx) : Prop :=
  ∀ sl, httpGetStline htx = some sl → ∀ v ∈ htx.hosts, v = httpAuthority sl.p2

/-- A context on a host header, as `http_find_header` leaves it: a value and the
blanks around it. -/
structure HostCtx (htx : Htx) (ctx : HttpHdrCtx) : Prop where
  blk : ∃ b, htx.headerSection[ctx.blk]? = some b ∧ htxGetBlkType b = htxBlkHdr ∧
    isteqi (htxGetBlkName b) (bytes "host") = true ∧
    ctx.off + ctx.len + ctx.lwsAfter ≤ (htxGetBlkValue b).length
  off : ctx.lwsBefore ≤ ctx.off

/-- The operation is about a host header. -/
def HostOp.OnHost (htx : Htx) : HostOp → Prop
  | updateHost _ => True
  | replaceReqUri _ => True
  | replaceHeader ctx name _ => HostCtx htx ctx ∧ isteqi name (bytes "host") = true
  | replaceHeaderValue ctx _ => HostCtx htx ctx

/-- The messages reached from `htx₀` by operations that succeed and meet `cond`. -/
inductive HostRuns (cond : Htx → HostOp → Prop) (htx₀ : Htx) : Htx → Prop
  | refl : HostRuns cond htx₀ htx₀
  | step {htx htx' : Htx} {op : HostOp} {fuel : ℕ} (hrun : HostRuns cond htx₀ htx)
      (hon : op.OnHost htx) (hcond : cond htx op)
      (hexec : op.exec fuel htx = some (htx', true)) : HostRuns cond htx₀ htx'

/-- Every operation on the message that meets `cond` ends. -/
def HostsEnd (cond : Htx → HostOp → Prop) (htx : Htx) : Prop :=
  ∀ op : HostOp, op.OnHost htx → cond htx op → ∃ fuel r, op.exec fuel htx = some r

/-- If the message agrees, then in every message reached from it the headers agree
with a URI that is said to have an authority. -/
def HostsStay (cond : Htx → HostOp → Prop) (htx₀ : Htx) : Prop :=
  htx₀.HostsAgree → ∀ htx, HostRuns cond htx₀ htx →
    ∀ sl, httpGetStline htx = some sl → sl.flags.hasAuthority = true → htx.HostsAgree

/-! ### When it holds -/

/-- The URI behind `http_update_authority`. -/
def uriWithHost (uri host : CStr) : CStr :=
  let (pre, authority, post) := httpUriAuthority uri
  if host = authority then uri else pre ++ host ++ post

/-- `host` may take the place of the authority: it has no "/" and no "@", and where the URI starts
with it, it has no "*" in front and makes no scheme with the path.  The authority itself may. -/
def HostReadsBack (uri host : CStr) : Prop :=
  host = httpAuthority uri ∨
    47 ∉ host ∧ 64 ∉ host ∧ ((httpUriAuthority uri).1 = [] → host.head? ≠ some 42 ∧
      ∀ scheme, IsScheme scheme → host = scheme ++ [58] →
        ¬ [47, 47] <+: (httpUriAuthority uri).2.2)

/-- The value of the header of `ctx` with `data` in its place. -/
def newHdrValue (htx : Htx) (ctx : HttpHdrCtx) (data : CStr) : CStr :=
  let v := ((htx.blks[ctx.blk]?).map htxGetBlkValue).getD []
  v.take (ctx.off - ctx.lwsBefore) ++ data ++ v.drop (ctx.off + ctx.len + ctx.lwsAfter)

/-- The value `v` may be written to a host header: its length fits, and unless the
flag is clear, either it is the authority already or it may become the authority
and there is no other host header. -/
def ValueSound (htx : Htx) (v : CStr) : Prop :=
  v.length < 2 ^ 20 ∧ ∀ sl, httpGetStline htx = some sl → sl.flags.hasAuthority = true →
    v = httpAuthority sl.p2 ∨ (htx.hosts.length ≤ 1 ∧ HostReadsBack sl.p2 v)

/-- The host headers may be updated from `uri` when `target` is the URI of the
message: there is no authority to write, or at most one header to write it to,
where its length fits and it is read back. -/
def UriSound (htx : Htx) (meth : HttpMeth) (target uri : CStr) : Prop :=
  uriNoAuthority uri = true ∨ htx.hosts = [] ∨
    (htx.hosts.length = 1 ∧ (hostAuthority meth uri).length < 2 ^ 20 ∧
      HostReadsBack target (hostAuthority meth uri))

def HostOp.Sound (htx : Htx) : HostOp → Prop
  | updateHost uri => ∀ sl, httpGetStline htx = some sl → UriSound htx sl.meth sl.p2 uri
  | replaceReqUri uri => ∀ sl, httpGetStline htx = some sl → UriSound htx sl.meth uri uri
  | replaceHeader _ _ value => ValueSound htx value
  | replaceHeaderValue ctx data => ValueSound htx (newHdrValue htx ctx data)

end SmartHAProxy
