/-
Scheme-based normalization (http_htx.c, http.c).

A target URI in absolute form may spell out the default port of its scheme.
The normalization takes the port off, from the URI and from the values of the
host headers: each comma-separated value is replaced by the name of the host.

The name is passed as a pointer into the start line.  The first replacement
reads the name there; then `http_update_authority` may move the start line, and
what later replacements read is not known.  It is the parameter `stale`.

`httpSchemeBasedNormalize_holds` is the effect on a message with one host header
of one value.
-/
import SmartHAProxy.Http.Htx

namespace SmartHAProxy

variable {fuel : ℕ} {stale : ℕ → CStr}

/-! ### The URI parser -/

/-- `http_parse_scheme` of a fresh parser: the scheme with the "://" behind it,
and the rest.  A URI that starts with "*" or "/" has none. -/
def httpParseScheme (uri : CStr) : Option (CStr × CStr) :=
  match uri with
  | [] => none
  | c :: cs =>
    if isAlpha c then
      let inScheme := fun d => isAlpha d || isDigit d || d == 43 || d == 45 || d == 46
      match cs.dropWhile inScheme with
      | 58 :: 47 :: 47 :: rest => some (c :: cs.takeWhile inScheme ++ [58, 47, 47], rest)
      | _ => none
    else none

/-- `http_parse_authority` behind the scheme: the authority, with its user info, and the rest. -/
def httpParseAuthority (uri : CStr) : CStr × CStr :=
  (uri.takeWhile (· != 47), uri.dropWhile (· != 47))

/-- `http_parse_authority` of a fresh parser without the user info, as the parts
before, in and behind the authority.  A URI without scheme is an authority. -/
def httpUriAuthority (uri : CStr) : CStr × CStr × CStr :=
  match uri with
  | [] => ([], [], [])
  | c :: _ =>
    if c == 42 || c == 47 then ([], [], uri)
    else
      let (scheme, rest) := (httpParseScheme uri).getD ([], uri)
      let (authority, path) := httpParseAuthority rest
      let host := (authority.reverse.takeWhile (· != 64)).reverse
      (scheme ++ authority.take (authority.length - host.length), host, path)

/-- The host and the port of an authority: the last ":" with only digits behind
it.  The read at the end of an empty authority finds a "/" or the version. -/
def splitPort (authority : CStr) : Option (CStr × CStr) :=
  match authority.reverse.dropWhile isDigit with
  | 58 :: host => some (host.reverse, (authority.reverse.takeWhile isDigit).reverse)
  | _ => none

def uriIsDefaultPort (scheme port : CStr) : Bool :=
  (port == bytes "443" && isteqi scheme (bytes "https://")) ||
    (port == bytes "80" && isteqi scheme (bytes "http://"))

/-- The scheme, the host and the path of a URI that names its default port. -/
def httpDefaultPort (uri : CStr) : Option (CStr × CStr × CStr) := do
  let (scheme, rest) ← httpParseScheme uri
  let (authority, path) := httpParseAuthority rest
  let (host, port) ← splitPort authority
  if port ≠ [] ∧ uriIsDefaultPort scheme port then some (scheme, host, path) else none

/-! ### Looking for headers -/

/-- `http_find_hdr_value_end`: the length of the value up to the next comma that
is not quoted. -/
def httpFindHdrValueEnd (quoted qdpair : Bool) : CStr → ℕ
  | [] => 0
  | c :: cs =>
    if qdpair then 1 + httpFindHdrValueEnd quoted false cs
    else if quoted then
      if c = 92 then 1 + httpFindHdrValueEnd true true cs
      else if c = 34 then 1 + httpFindHdrValueEnd false false cs
      else 1 + httpFindHdrValueEnd true false cs
    else if c = 34 then 1 + httpFindHdrValueEnd true false cs
    else if c = 44 then 0
    else 1 + httpFindHdrValueEnd false false cs

/-- `struct http_hdr_ctx`: a block, and the place of a value in the value of the block. -/
structure HttpHdrCtx where
  blk : ℕ
  off : ℕ
  len : ℕ
  lwsBefore : ℕ
  lwsAfter : ℕ
  deriving DecidableEq, Repr

/-- `return_hdr`: the first value of `v`, which is at `off` in the block. -/
def httpReturnHdr (full : Bool) (blk off : ℕ) (v : CStr) : HttpHdrCtx :=
  let before := (v.takeWhile httpIsLws).length
  let v1 := v.dropWhile httpIsLws
  let v2 := if full then v1 else v1.take (httpFindHdrValueEnd false false v1)
  let after := (v2.reverse.takeWhile httpIsLws).length
  ⟨blk, off + before, v2.length - after, before, after⟩

/-- The scan of the blocks from position `i`. -/
def httpScanHeader (name : CStr) (full : Bool) : ℕ → List HtxBlk → Option HttpHdrCtx
  | _, [] => none
  | i, b :: blks =>
    if htxGetBlkType b = htxBlkEoh then none
    else if htxGetBlkType b ≠ htxBlkHdr then httpScanHeader name full (i + 1) blks
    else if isteqi (htxGetBlkName b) name then
      some (httpReturnHdr full i 0 (htxGetBlkValue b))
    else httpScanHeader name full (i + 1) blks

def httpFindHeader (htx : Htx) (name : CStr) (ctx : Option HttpHdrCtx) (full : Bool) :
    Option HttpHdrCtx :=
  match ctx with
  | none => httpScanHeader name full 0 htx.blks
  | some c =>
    let next := httpScanHeader name full (c.blk + 1) (htx.blks.drop (c.blk + 1))
    if full then next
    else
      let p := c.off + c.len + c.lwsAfter
      match ((htx.blks[c.blk]?.map htxGetBlkValue).getD []).drop p with
      | [] => next
      | ch :: v =>
        some (if ch = 44 then httpReturnHdr full c.blk (p + 1) v
          else httpReturnHdr full c.blk p (ch :: v))

/-! ### Replacing the host -/

def httpUpdateAuthority (htx : Htx) (sl : HtxSl) (host : CStr) : Option Htx :=
  let (pre, authority, post) := httpUriAuthority sl.p2
  if authority = [] then none
  else if host = authority then some htx
  else httpReplaceStline htx sl.p1 (pre ++ host ++ post) sl.p3

/-- `http_replace_header_value`.  The message may have changed when it fails. -/
def httpReplaceHeaderValue (htx : Htx) (ctx : HttpHdrCtx) (data : CStr) :
    Htx × Option HttpHdrCtx :=
  let start := ctx.off - ctx.lwsBefore
  let len := ctx.lwsBefore + ctx.len + ctx.lwsAfter
  match htxReplaceBlkValue htx ctx.blk start len data with
  | none => (htx, none)
  | some htx1 =>
    let b := htx1.blks[ctx.blk]?
    let n := (b.map htxGetBlkName).getD []
    let v := (b.map htxGetBlkValue).getD []
    match httpGetStline htx1 with
    | some sl =>
      if sl.flags.hasAuthority ∧ n = bytes "host" then
        match httpUpdateAuthority htx1 sl v with
        | none => (htx1, none)
        | some htx2 =>
          (htx2, (httpFindHeader htx2 (bytes "host") none true).map fun c =>
            ⟨c.blk, start, data.length, 0, 0⟩)
      else (htx1, some ⟨ctx.blk, start, data.length, 0, 0⟩)
    | none => (htx1, some ⟨ctx.blk, start, data.length, 0, 0⟩)

/-- The loop of `http_scheme_based_normalize` over the host headers.  `data` is
what each replacement writes.  `none`: the loop takes more than `fuel` turns. -/
def replaceHosts (data : ℕ → CStr) : ℕ → ℕ → Htx → Option HttpHdrCtx → Option Htx
  | 0, _, _, _ => none
  | fuel + 1, k, htx, ctx =>
    match httpFindHeader htx (bytes "host") ctx false with
    | none => some htx
    | some c =>
      match httpReplaceHeaderValue htx c (data k) with
      | (htx', none) => some htx'
      | (htx', some c') => replaceHosts data fuel (k + 1) htx' (some c')

def httpSchemeBasedNormalize (stale : ℕ → CStr) (fuel : ℕ) (htx : Htx) : Option Htx :=
  match httpGetStline htx with
  | none => some htx
  | some sl =>
    if sl.flags.hasSchm || sl.flags.hasAuthority then
      match httpDefaultPort sl.p2 with
      | none => some htx
      | some (scheme, host, path) =>
        let htx' := (httpReplaceStline htx sl.p1 (scheme ++ host ++ path) sl.p3).getD htx
        replaceHosts (fun k => if k = 0 then host else stale k) fuel 0 htx' none
    else some htx

/-! ### One host header -/

/-- A header value of one element: no comma outside quotes. -/
def OneElement (v : CStr) : Prop :=
  httpFindHdrValueEnd false false (v.dropWhile httpIsLws) = (v.dropWhile httpIsLws).length

instance OneElement.decidable (v : CStr) : Decidable (OneElement v) :=
  inferInstanceAs (Decidable (_ = _))

/-- No header is called host, in any case. -/
def NoHost (hdrs : List (CStr × CStr)) : Prop :=
  ∀ h ∈ hdrs, isteqi h.1 (bytes "host") = false

theorem length_lws (v : CStr) :
    (v.takeWhile httpIsLws).length + (v.dropWhile httpIsLws).length = v.length ∧
      ((v.dropWhile httpIsLws).reverse.takeWhile httpIsLws).length ≤
        (v.dropWhile httpIsLws).length := by
  constructor
  · rw [← List.length_append, List.takeWhile_append_dropWhile]
  · have := (List.takeWhile_prefix httpIsLws (l := (v.dropWhile httpIsLws).reverse)).length_le
    simpa using this

theorem httpReturnHdr_whole {v : CStr} (hv : OneElement v) (blk : ℕ) :
    (httpReturnHdr false blk 0 v).blk = blk ∧
      (httpReturnHdr false blk 0 v).off - (httpReturnHdr false blk 0 v).lwsBefore = 0 ∧
      (httpReturnHdr false blk 0 v).lwsBefore + (httpReturnHdr false blk 0 v).len +
        (httpReturnHdr false blk 0 v).lwsAfter = v.length := by
  obtain ⟨hsplit, hafter⟩ := length_lws v
  have hend : (v.dropWhile httpIsLws).take
      (httpFindHdrValueEnd false false (v.dropWhile httpIsLws)) = v.dropWhile httpIsLws := by
    rw [hv, List.take_length]
  simp only [httpReturnHdr, Bool.false_eq_true, if_false, hend]
  refine ⟨trivial, by omega, by omega⟩

section Scan

variable {pre post : List (CStr × CStr)} {a : CStr} {tl : List HtxBlk} (full : Bool)

theorem httpScanHeader_noHost (hn : NoHost post) (hf : ∀ h ∈ post, HdrFits h) (i : ℕ) :
    httpScanHeader (bytes "host") full i (post.map hdrBlk ++ eohBlk :: tl) = none := by
  induction post generalizing i with
  | nil => rfl
  | cons h post ih =>
    have hfh := hf h List.mem_cons_self
    have ht := hdrBlk_type hfh
    have hne : isteqi (htxGetBlkName (hdrBlk h)) (bytes "host") = false := by
      rw [hdrBlk_name hfh]
      exact hn h List.mem_cons_self
    rw [List.map_cons, List.cons_append, httpScanHeader, if_neg (by rw [ht]; decide),
      if_neg (by simp [ht]), if_neg (by simp [hne])]
    exact ih (fun h hm => hn h (List.mem_cons_of_mem _ hm))
      (fun h hm => hf h (List.mem_cons_of_mem _ hm)) (i + 1)

theorem httpScanHeader_host (hn : NoHost pre)
    (hf : ∀ h ∈ pre ++ (bytes "host", a) :: post, HdrFits h) (i : ℕ) :
    httpScanHeader (bytes "host") full i
        ((pre ++ (bytes "host", a) :: post).map hdrBlk ++ eohBlk :: tl) =
      some (httpReturnHdr full (i + pre.length) 0 a) := by
  induction pre generalizing i with
  | nil =>
    have hfh : HdrFits (bytes "host", a) := hf _ (by simp)
    have ht := hdrBlk_type hfh
    have heq : isteqi (htxGetBlkName (hdrBlk (bytes "host", a))) (bytes "host") = true := by
      rw [hdrBlk_name hfh]
      show isteqi (bytes "host") (bytes "host") = true
      decide
    rw [List.nil_append, List.map_cons, List.cons_append, httpScanHeader,
      if_neg (by rw [ht]; decide), if_neg (by simp [ht]), if_pos heq, hdrBlk_value hfh]
    rfl
  | cons h pre ih =>
    have hfh := hf h (by simp)
    have ht := hdrBlk_type hfh
    have hne : isteqi (htxGetBlkName (hdrBlk h)) (bytes "host") = false := by
      rw [hdrBlk_name hfh]
      exact hn h List.mem_cons_self
    rw [List.cons_append, List.map_cons, List.cons_append, httpScanHeader,
      if_neg (by rw [ht]; decide), if_neg (by simp [ht]), if_neg (by simp [hne]),
      ih (fun h hm => hn h (List.mem_cons_of_mem _ hm))
        (fun h hm => hf h (List.mem_cons_of_mem _ hm)) (i + 1)]
    rw [List.length_cons, Nat.add_right_comm, Nat.add_assoc]

end Scan

namespace Htx.Holds

variable {htx htx' : Htx} {sl : HtxSl} {pre post : List (CStr × CStr)} {a : CStr}
  {tl : List HtxBlk}

theorem findHeader_first (hh : htx.Holds sl (pre ++ (bytes "host", a) :: post) (eohBlk :: tl))
    (hn : NoHost pre) (full : Bool) :
    httpFindHeader htx (bytes "host") none full =
      some (httpReturnHdr full (pre.length + 1) 0 a) := by
  have ht := slBlk_type hh.slSize
  rw [httpFindHeader, hh.blks, httpScanHeader, if_neg (by rw [ht]; decide),
    if_pos (by rw [ht]; decide), httpScanHeader_host full hn hh.fits, Nat.zero_add, Nat.add_comm]

theorem findHeader_next (hh : htx.Holds sl (pre ++ (bytes "host", a) :: post) (eohBlk :: tl))
    (hn : NoHost post) :
    httpFindHeader htx (bytes "host") (some ⟨pre.length + 1, 0, a.length, 0, 0⟩) false = none := by
  have hf : HdrFits (bytes "host", a) := hh.fits _ (by simp)
  have hv : ((htx.blks[pre.length + 1]?.map htxGetBlkValue).getD []).drop (0 + a.length + 0) =
      [] := by
    rw [hh.blks_get, Option.map_some, Option.getD_some, hdrBlk_value hf]
    simp
  have hscan : httpScanHeader (bytes "host") false (pre.length + 1 + 1)
      (post.map hdrBlk ++ eohBlk :: tl) = none :=
    httpScanHeader_noHost false hn (fun h hm => hh.fits h (by simp [hm])) _
  simp only [httpFindHeader, Bool.false_eq_true, if_false, hh.blks_drop, hscan]
  rw [hv]

theorem replaceHeaderValue {w : CStr}
    (hh : htx.Holds sl (pre ++ (bytes "host", a) :: post) [eohBlk]) (hpre : NoHost pre)
    (ha : OneElement a) (hw : w.length ≤ a.length) :
    ∃ htx' sl' ctx',
      httpReplaceHeaderValue htx (httpReturnHdr false (pre.length + 1) 0 a) w = (htx', ctx') ∧
      htx'.Holds sl' (pre ++ (bytes "host", w) :: post) [eohBlk] ∧
      (ctx' = none ∨ ctx' = some ⟨pre.length + 1, 0, w.length, 0, 0⟩) := by
  obtain ⟨hblk, hoff, hlen⟩ := httpReturnHdr_whole ha (pre.length + 1)
  obtain ⟨htx1, hr, h1⟩ := hh.replaceBlkValue hw
  have hst : httpGetStline htx1 = some sl := by
    rw [httpGetStline, h1.blks]
    rfl
  have hfw : HdrFits (bytes "host", w) := h1.fits _ (by simp)
  simp only [httpReplaceHeaderValue, hblk, hoff, hlen, hr, hst, h1.blks_get, Option.map_some,
    Option.getD_some, hdrBlk_name hfw, hdrBlk_value hfw, and_true]
  split_ifs with hauth
  · -- the authority of the URI follows the header
    generalize hu : httpUpdateAuthority htx1 sl w = u
    cases u with
    | none => exact ⟨htx1, sl, none, rfl, h1, .inl rfl⟩
    | some htx2 =>
      have h2 : ∃ sl', htx2.Holds sl' (pre ++ (bytes "host", w) :: post) [eohBlk] := by
        simp only [httpUpdateAuthority] at hu
        split_ifs at hu
        · cases hu
          exact ⟨sl, h1⟩
        · exact ⟨_, h1.replaceStline hu⟩
      obtain ⟨sl', h2⟩ := h2
      refine ⟨htx2, sl', _, rfl, h2, .inr ?_⟩
      rw [h2.findHeader_first hpre true]
      rfl
  · exact ⟨htx1, sl, _, rfl, h1, .inr rfl⟩

theorem replaceHosts {data : ℕ → CStr}
    (hh : htx.Holds sl (pre ++ (bytes "host", a) :: post) [eohBlk]) (hpre : NoHost pre)
    (hpost : NoHost post) (ha : OneElement a) (hw : (data 0).length ≤ a.length)
    (hr : SmartHAProxy.replaceHosts data fuel 0 htx none = some htx') :
    ∃ sl', htx'.Holds sl' (pre ++ (bytes "host", data 0) :: post) [eohBlk] := by
  cases fuel with
  | zero => cases hr
  | succ fuel =>
    obtain ⟨htx1, sl1, ctx1, hrep, h1, hctx⟩ := hh.replaceHeaderValue hpre ha hw
    rw [SmartHAProxy.replaceHosts, hh.findHeader_first hpre false] at hr
    simp only [hrep] at hr
    rcases hctx with rfl | rfl
    · cases hr
      exact ⟨sl1, h1⟩
    · -- the second turn finds no other host header
      cases fuel with
      | zero => cases hr
      | succ fuel =>
        simp only [SmartHAProxy.replaceHosts, h1.findHeader_next hpost] at hr
        cases hr
        exact ⟨sl1, h1⟩

end Htx.Holds

theorem splitPort_length {authority host port : CStr}
    (h : splitPort authority = some (host, port)) : host.length ≤ authority.length := by
  simp only [splitPort] at h
  split at h
  next hd _ hs =>
    obtain ⟨rfl, -⟩ : _ ∧ _ := by simpa using h
    have := (List.dropWhile_suffix isDigit (l := authority.reverse)).length_le
    rw [hs] at this
    simp only [List.length_cons, List.length_reverse] at this ⊢
    omega
  next => cases h

theorem httpParseScheme_append {uri scheme rest : CStr}
    (h : httpParseScheme uri = some (scheme, rest)) : scheme ++ rest = uri := by
  simp only [httpParseScheme] at h
  split at h
  next => cases h
  next c cs =>
    split_ifs at h
    split at h
    next hd =>
      obtain ⟨rfl, rfl⟩ : _ ∧ _ := by simpa using h
      have := List.takeWhile_append_dropWhile
        (p := fun d => isAlpha d || isDigit d || d == 43 || d == 45 || d == 46) (l := cs)
      rw [hd] at this
      simpa using this
    next => cases h

theorem httpDefaultPort_length {uri scheme host path : CStr}
    (h : httpDefaultPort uri = some (scheme, host, path)) :
    (scheme ++ host ++ path).length ≤ uri.length := by
  simp only [httpDefaultPort, httpParseAuthority, Option.bind_eq_bind, Option.bind_eq_some_iff]
    at h
  obtain ⟨⟨s, rest⟩, hs, ⟨host', port⟩, hp, h⟩ := h
  split_ifs at h
  cases h
  have h1 := splitPort_length hp
  have h2 : (rest.takeWhile (· != 47)).length + (rest.dropWhile (· != 47)).length =
      rest.length := by
    rw [← List.length_append, List.takeWhile_append_dropWhile]
  rw [← httpParseScheme_append hs]
  simp only [List.length_append] at h1 ⊢
  omega

theorem httpSchemeBasedNormalize_none {htx htx' : Htx} {sl : HtxSl} {hdrs : List (CStr × CStr)}
    {tl : List HtxBlk} (hh : htx.Holds sl hdrs tl) (hn : httpDefaultPort sl.p2 = none)
    (hr : httpSchemeBasedNormalize stale fuel htx = some htx') : htx' = htx := by
  have hst : httpGetStline htx = some sl := by
    rw [httpGetStline, hh.blks]
    rfl
  simp only [httpSchemeBasedNormalize, hst, hn] at hr
  split_ifs at hr <;> cases hr <;> rfl

/-- Without a host header, the headers stay as they are. -/
theorem httpSchemeBasedNormalize_noHost {htx htx' : Htx} {sl : HtxSl} {hdrs : List (CStr × CStr)}
    (hh : htx.Holds sl hdrs [eohBlk]) (hno : NoHost hdrs)
    (hr : httpSchemeBasedNormalize stale fuel htx = some htx') :
    ∃ sl', htx'.Holds sl' hdrs [eohBlk] := by
  have hst : httpGetStline htx = some sl := by
    rw [httpGetStline, hh.blks]
    rfl
  simp only [httpSchemeBasedNormalize, hst] at hr
  split_ifs at hr
  · split at hr
    next =>
      cases hr
      exact ⟨sl, hh⟩
    next scheme host path hd =>
      -- the start line changes, and the search for a host header ends at once
      have h1 : ∃ sl', ((httpReplaceStline htx sl.p1 (scheme ++ host ++ path) sl.p3).getD
          htx).Holds sl' hdrs [eohBlk] := by
        cases hrep : httpReplaceStline htx sl.p1 (scheme ++ host ++ path) sl.p3 with
        | none => exact ⟨sl, hh⟩
        | some htx1 => exact ⟨_, hh.replaceStline hrep⟩
      obtain ⟨sl', h1⟩ := h1
      have ht := slBlk_type h1.slSize
      have hfind : httpFindHeader ((httpReplaceStline htx sl.p1 (scheme ++ host ++ path)
          sl.p3).getD htx) (bytes "host") none false = none := by
        rw [httpFindHeader, h1.blks, httpScanHeader, if_neg (by rw [ht]; decide),
          if_pos (by rw [ht]; decide), httpScanHeader_noHost false hno h1.fits]
      cases fuel with
      | zero => cases hr
      | succ fuel =>
        simp only [replaceHosts, hfind] at hr
        cases hr
        exact ⟨sl', h1⟩
  · cases hr
    exact ⟨sl, hh⟩

/-- **The effect of the normalization** on a message with one host header,
of one element: the value without the port, if it was the default port. -/
theorem httpSchemeBasedNormalize_holds {htx htx' : Htx} {sl : HtxSl} {pre post : List (CStr × CStr)}
    {a : CStr} (hh : htx.Holds sl (pre ++ (bytes "host", a) :: post) [eohBlk]) (hpre : NoHost pre)
    (hpost : NoHost post) (hn : ∀ n ∈ httpDefaultPort sl.p2, OneElement a ∧ n.2.1.length ≤ a.length)
    (hf : sl.flags.hasSchm = true) (hr : httpSchemeBasedNormalize stale fuel htx = some htx') :
    ∃ sl', htx'.Holds sl'
      (pre ++ (bytes "host", (httpDefaultPort sl.p2).elim a (·.2.1)) :: post) [eohBlk] := by
  have hst : httpGetStline htx = some sl := by
    rw [httpGetStline, hh.blks]
    rfl
  simp only [httpSchemeBasedNormalize, hst, hf, Bool.true_or, if_true] at hr
  cases hd : httpDefaultPort sl.p2 with
  | none =>
    rw [hd] at hr
    cases hr
    exact ⟨sl, hh⟩
  | some n =>
    obtain ⟨scheme, host, path⟩ := n
    obtain ⟨ha, hlen⟩ := hn _ hd
    simp only [hd] at hr
    have hle := httpDefaultPort_length hd
    obtain ⟨htx1, h1⟩ := hh.replaceStline_isSome sl.p1 (scheme ++ host ++ path) sl.p3 (by
      simp only [HtxSl.size]
      omega)
    rw [h1, Option.getD_some] at hr
    exact (hh.replaceStline h1).replaceHosts hpre hpost ha hlen hr

end SmartHAProxy
