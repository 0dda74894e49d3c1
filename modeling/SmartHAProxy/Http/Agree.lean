/-
The host headers agree with the URI (http_htx.c).

Writing a host header changes one header of the message, and the URI behind it
(`IsReq.replaceHeaderValue`, `IsReq.replaceHeader`).  Under the condition of a
step the header and the URI agree again (`IsReq.agree_written`), and the loop of
`http_update_host` has at most one header to visit (`IsReq.updateHosts`).
-/
import SmartHAProxy.Http.DefaultPort
import SmartHAProxy.Http.Host

namespace SmartHAProxy

variable {uri : CStr} {fuel : ℕ} {r : Htx × Bool}

/-! ### Messages that are requests -/

theorem Htx.Holds.setHdr {htx : Htx} {sl : HtxSl} {pre post : List (CStr × CStr)}
    {h h' : CStr × CStr} {tl : List HtxBlk} {new old : ℕ}
    (hh : htx.Holds sl (pre ++ h :: post) tl) (hf : HdrFits h')
    (hno : htxNoExpansion htx new old = false) (hold : old ≤ h.1.length + h.2.length)
    (hsize : h.1.length + h.2.length + new = h'.1.length + h'.2.length + old) :
    Htx.Holds { htx with
      data := htx.data + new - old
      blks := htx.blks.set (pre.length + 1) (hdrBlk h') } sl (pre ++ h' :: post) tl := by
  have hdata := hh.data
  have hroom := hh.room
  rw [htxNoExpansion, htxFreeSpace, decide_eq_false_iff_not, Nat.not_lt] at hno
  refine ⟨?_, hh.size, ?_, ?_, ?_⟩
  · simp [hh.blks]
  · intro k hm
    rcases List.mem_append.mp hm with hm | hm
    · exact hh.fits k (List.mem_append_left _ hm)
    · rcases List.mem_cons.mp hm with rfl | hm
      · exact hf
      · exact hh.fits k (by simp [hm])
  · simp only [hdrsSize, List.map_append, List.map_cons, List.sum_append, List.sum_cons]
      at hdata ⊢
    omega
  · simp only [hdrsSize, List.map_append, List.map_cons, List.sum_append, List.sum_cons]
      at hdata
    simp only [List.length_set]
    omega

theorem noHost_of_filter {pre post : List (CStr × CStr)} {h : CStr × CStr}
    (hh : isteqi h.1 (bytes "host") = true)
    (hone : ((pre ++ h :: post).filter fun h => isteqi h.1 (bytes "host")).length ≤ 1) :
    NoHost pre ∧ NoHost post := by
  rw [List.filter_append, List.filter_cons_of_pos (by simpa using hh), List.length_append,
    List.length_cons] at hone
  have hpre : pre.filter (fun h => isteqi h.1 (bytes "host")) = [] :=
    List.length_eq_zero_iff.mp (by omega)
  have hpost : post.filter (fun h => isteqi h.1 (bytes "host")) = [] :=
    List.length_eq_zero_iff.mp (by omega)
  rw [List.filter_eq_nil_iff] at hpre hpost
  exact ⟨fun k hk => by simpa using hpre k hk, fun k hk => by simpa using hpost k hk⟩

namespace Htx.IsReq

variable {htx htx' : Htx} {sl : HtxSl} {hdrs pre post : List (CStr × CStr)} {v w : CStr}
  {ctx ctx' : HttpHdrCtx}

theorem stline (h : htx.IsReq sl hdrs) : httpGetStline htx = some sl := by
  obtain ⟨tl, hh⟩ := h.holds
  rw [httpGetStline, hh.blks]
  rfl

theorem hosts_eq (h : htx.IsReq sl hdrs) :
    htx.hosts = (hdrs.filter fun h => isteqi h.1 (bytes "host")).map Prod.snd := by
  obtain ⟨tl, hh⟩ := h.holds
  rw [Htx.hosts, hh.headers_eq]

theorem hostsAgree_iff (h : htx.IsReq sl hdrs) : htx.HostsAgree ↔
    ∀ k ∈ hdrs, isteqi k.1 (bytes "host") = true → k.2 = httpAuthority sl.p2 := by
  rw [Htx.HostsAgree, h.hosts_eq, h.stline]
  constructor
  · intro hag k hk hn
    exact hag sl rfl _ (List.mem_map_of_mem (List.mem_filter.mpr ⟨hk, hn⟩))
  · intro hag sl' hsl v hv
    cases hsl
    obtain ⟨k, hk, rfl⟩ := List.mem_map.mp hv
    exact hag k (List.mem_filter.mp hk).1 (List.mem_filter.mp hk).2

theorem name_eq (h : htx.IsReq sl hdrs) {k : CStr × CStr} (hk : k ∈ hdrs)
    (hn : isteqi k.1 (bytes "host") = true) : k.1 = bytes "host" := by
  rw [isteqi, h.lower k hk, beq_iff_eq] at hn
  rw [hn]
  decide

theorem setSlFlags (h : htx.IsReq sl hdrs) (f : HtxSlFlags → HtxSlFlags) :
    (httpSetSlFlags htx f).IsReq { sl with flags := f sl.flags } hdrs := by
  obtain ⟨tl, hh⟩ := h.holds
  have hroom := hh.room
  rw [hh.blks] at hroom
  refine ⟨⟨tl, ?_⟩, h.lower⟩
  rw [httpSetSlFlags, hh.blks]
  exact ⟨rfl, hh.size, hh.fits, hh.data, hroom⟩

theorem replaceStline (h : htx.IsReq sl hdrs) {p1 p2 p3 : CStr}
    (hr : httpReplaceStline htx p1 p2 p3 = some htx') :
    htx'.IsReq { sl with p1 := p1, p2 := p2, p3 := p3 } hdrs := by
  obtain ⟨tl, hh⟩ := h.holds
  exact ⟨⟨tl, hh.replaceStline hr⟩, h.lower⟩

theorem updateAuthority (h : htx.IsReq sl hdrs) (hu : httpUpdateAuthority htx sl v = some htx') :
    htx'.IsReq { sl with p2 := uriWithHost sl.p2 v } hdrs ∧ httpAuthority sl.p2 ≠ [] := by
  simp only [httpUpdateAuthority] at hu
  split_ifs at hu with hnil heq
  · cases hu
    have hp2 : uriWithHost sl.p2 v = sl.p2 := if_pos heq
    rw [hp2]
    exact ⟨h, hnil⟩
  · have hp2 : uriWithHost sl.p2 v =
        (httpUriAuthority sl.p2).1 ++ v ++ (httpUriAuthority sl.p2).2.2 := if_neg heq
    rw [hp2]
    exact ⟨h.replaceStline hu, hnil⟩

theorem of_hostCtx (h : htx.IsReq sl hdrs) (hc : HostCtx htx ctx) : ∃ pre v post,
    hdrs = pre ++ (bytes "host", v) :: post ∧ ctx.blk = pre.length + 1 ∧
      ctx.off + ctx.len + ctx.lwsAfter ≤ v.length := by
  obtain ⟨tl, hh⟩ := h.holds
  obtain ⟨b, hb, ht, hn, hend⟩ := hc.blk
  rw [hh.headerSection_eq] at hb
  rcases hi : ctx.blk with - | i
  · -- the first block is the start line
    rw [hi, List.getElem?_cons_zero, Option.some.injEq] at hb
    rw [← hb, slBlk_type hh.slSize] at ht
    cases ht
  · rw [hi, List.getElem?_cons_succ, List.getElem?_map, Option.map_eq_some_iff] at hb
    obtain ⟨k, hk, rfl⟩ := hb
    have hmem : k ∈ hdrs := List.mem_of_getElem? hk
    rw [hdrBlk_name (hh.fits k hmem)] at hn
    rw [hdrBlk_value (hh.fits k hmem)] at hend
    obtain ⟨hlt, rfl⟩ := List.getElem?_eq_some_iff.mp hk
    have hk' : (bytes "host", hdrs[i].2) = hdrs[i] := Prod.ext (h.name_eq hmem hn).symm rfl
    refine ⟨hdrs.take i, hdrs[i].2, hdrs.drop (i + 1), ?_, ?_, hend⟩
    · rw [hk', ← List.drop_eq_getElem_cons hlt, List.take_append_drop]
    · rw [List.length_take, Nat.min_eq_left (Nat.le_of_lt hlt)]

theorem setHost (h : htx.IsReq sl (pre ++ (bytes "host", v) :: post)) {new old : ℕ}
    (hw : w.length < 2 ^ 20) (hno : htxNoExpansion htx new old = false)
    (hold : old ≤ 4 + v.length) (hsize : v.length + new = w.length + old) :
    Htx.IsReq { htx with
      data := htx.data + new - old
      blks := htx.blks.set (pre.length + 1) (hdrBlk (bytes "host", w)) } sl
      (pre ++ (bytes "host", w) :: post) := by
  obtain ⟨tl, hh⟩ := h.holds
  have hlen : (bytes "host").length = 4 := by decide
  refine ⟨⟨tl, hh.setHdr ⟨?_, ?_⟩ hno ?_ ?_⟩, ?_⟩
  · show (bytes "host").length ≤ 255
    omega
  · show w.length ≤ 1048575
    omega
  · show old ≤ (bytes "host").length + v.length
    omega
  · show (bytes "host").length + v.length + new = (bytes "host").length + w.length + old
    omega
  · intro k hk
    rcases List.mem_append.mp hk with hk | hk
    · exact h.lower k (List.mem_append_left _ hk)
    · rcases List.mem_cons.mp hk with rfl | hk
      · show (bytes "host").map istLc = bytes "host"
        decide
      · exact h.lower k (by simp [hk])

theorem replaceBlkValue (h : htx.IsReq sl (pre ++ (bytes "host", v) :: post)) {start len : ℕ}
    {data : CStr} (hend : start + len ≤ v.length)
    (hw : (v.take start ++ data ++ v.drop (start + len)).length < 2 ^ 20)
    (hr : htxReplaceBlkValue htx (pre.length + 1) start len data = some htx') :
    htx'.IsReq sl (pre ++ (bytes "host", v.take start ++ data ++ v.drop (start + len)) :: post) := by
  obtain ⟨tl, hh⟩ := h.holds
  have hf : HdrFits (bytes "host", v) := hh.fits _ (by simp)
  generalize hv' : v.take start ++ data ++ v.drop (start + len) = v' at hw ⊢
  have hlen : v.length + data.length = v'.length + len := by
    rw [← hv']
    simp only [List.length_append, List.length_take, List.length_drop]
    omega
  have hinfo : v.length + data.length - len = v'.length := by omega
  simp only [htxReplaceBlkValue, hh.blks_get, hdrBlk_name hf, hdrBlk_value hf, hinfo,
    hdrBlk_infoWithLen hf (Nat.le_of_lt_succ hw)] at hr
  split_ifs at hr with hno
  cases hr
  have hbytes : bytes "host" ++ v.take start ++ data ++ v.drop (start + len) =
      bytes "host" ++ v' := by
    rw [← hv', List.append_assoc, List.append_assoc, List.append_assoc]
  rw [hbytes]
  exact h.setHost hw (eq_false_of_ne_true hno) (by omega) hlen

theorem replaceHeader (h : htx.IsReq sl (pre ++ (bytes "host", v) :: post)) {name : CStr}
    (hn : isteqi name (bytes "host") = true) (hw : w.length < 2 ^ 20)
    (hr : htxReplaceHeader htx (pre.length + 1) name w = some htx') :
    htx'.IsReq sl (pre ++ (bytes "host", w) :: post) := by
  obtain ⟨tl, hh⟩ := h.holds
  have hf : HdrFits (bytes "host", v) := hh.fits _ (by simp)
  have hname : name.map istLc = bytes "host" := by
    rw [isteqi, beq_iff_eq] at hn
    rw [hn]
    decide
  have hlen : (bytes "host").length = 4 := by decide
  have hl : name.length = (bytes "host").length := by
    rw [← hname, List.length_map]
  have hsz : htxGetBlksz (hdrBlk (bytes "host", v)) = 4 + v.length := by
    rw [htxGetBlksz, if_pos (hdrBlk_named hf), hdrBlk_nameLen hf, hdrBlk_valueLen hf]
    rfl
  have hinfo : (htxBlkHdr * 2 ^ 28 + w.length * 2 ^ 8 + (bytes "host").length) % 2 ^ 32 =
      (hdrBlk (bytes "host", w)).info := by
    simp only [hdrBlk, htxBlkHdr, hlen]
    omega
  simp only [htxReplaceHeader, hh.blks_get, hdrBlk_type hf, ne_eq, not_true_eq_false, if_false,
    hname, hl, hsz, hinfo] at hr
  split_ifs at hr with hno
  cases hr
  exact h.setHost hw (eq_false_of_ne_true hno) (by omega) (by omega)

theorem findHeader_host (h : htx.IsReq sl (pre ++ (bytes "host", v) :: post)) (hpre : NoHost pre) :
    (httpFindHeader htx (bytes "host") none true).map HttpHdrCtx.blk = some (pre.length + 1) := by
  obtain ⟨tl, hh⟩ := h.holds
  rw [hh.findHeader_first hpre]
  rfl

theorem findHeader_behind (h : htx.IsReq sl (pre ++ (bytes "host", v) :: post))
    (hpost : NoHost post) (hblk : ctx.blk = pre.length + 1) :
    httpFindHeader htx (bytes "host") (some ctx) true = none := by
  obtain ⟨tl, hh⟩ := h.holds
  simp only [httpFindHeader, hblk, hh.blks_drop, if_true]
  exact httpScanHeader_noHost true hpost (fun k hk => hh.fits k (by simp [hk])) _

theorem findHeader_none (h : htx.IsReq sl hdrs) (hn : NoHost hdrs) :
    httpFindHeader htx (bytes "host") none true = none := by
  obtain ⟨tl, hh⟩ := h.holds
  have ht := slBlk_type hh.slSize
  rw [httpFindHeader, hh.blks, httpScanHeader, if_neg (by rw [ht]; decide),
    if_pos (by rw [ht]; decide)]
  exact httpScanHeader_noHost true hn hh.fits _

theorem newHdrValue_eq (h : htx.IsReq sl (pre ++ (bytes "host", v) :: post))
    (hblk : ctx.blk = pre.length + 1) (data : CStr) :
    newHdrValue htx ctx data =
      v.take (ctx.off - ctx.lwsBefore) ++ data ++ v.drop (ctx.off + ctx.len + ctx.lwsAfter) := by
  obtain ⟨tl, hh⟩ := h.holds
  have hf : HdrFits (bytes "host", v) := hh.fits _ (by simp)
  simp only [newHdrValue, hblk, hh.blks_get, Option.map_some, Option.getD_some, hdrBlk_value hf]

end Htx.IsReq

/-! ### Writing a host header -/

theorem uriWithHost_authority (uri : CStr) : uriWithHost uri (httpAuthority uri) = uri :=
  if_pos rfl

theorem hostReadsBack_authority (uri : CStr) : HostReadsBack uri (httpAuthority uri) := .inl rfl

/-- The parts of a URI with an authority, in terms of its scheme. -/
theorem httpUriAuthority_parts (hne : httpAuthority uri ≠ []) :
    ∃ scheme rest, (httpParseScheme uri).getD ([], uri) = (scheme, rest) ∧
      httpUriAuthority uri = (scheme ++ userInfo (httpParseAuthority rest).1,
        hostPort (httpParseAuthority rest).1, (httpParseAuthority rest).2) := by
  rcases uri with - | ⟨c, cs⟩
  · exact absurd rfl hne
  rcases hs : (httpParseScheme (c :: cs)).getD ([], c :: cs) with ⟨scheme, rest⟩
  refine ⟨scheme, rest, rfl, ?_⟩
  rw [httpAuthority, httpUriAuthority] at hne
  rw [httpUriAuthority]
  split_ifs at hne ⊢ with hc
  · exact absurd rfl hne
  · simp only [hs]
    -- what is not the host is the user info
    have happ := userInfo_append (httpParseAuthority rest).1
    have hlen := congrArg List.length happ
    rw [List.length_append] at hlen
    have htake : (httpParseAuthority rest).1.take ((httpParseAuthority rest).1.length -
        (hostPort (httpParseAuthority rest).1).length) = userInfo (httpParseAuthority rest).1 := by
      conv_lhs => rw [← happ]
      exact List.take_left' (by rw [happ]; omega)
    exact Prod.ext (congrArg (scheme ++ ·) htake) rfl

theorem hostPort_append {u host : CStr} (hu : u = [] ∨ ∃ v, u = v ++ [64]) (hhost : 64 ∉ host) :
    hostPort (u ++ host) = host := by
  have hall : ∀ c ∈ host.reverse, (c != 64) = true := fun c hc => by
    simpa using fun h : c = 64 => hhost (h ▸ List.mem_reverse.mp hc)
  rw [hostPort, List.reverse_append, List.takeWhile_append_of_pos hall]
  rcases hu with rfl | ⟨v, rfl⟩ <;> simp

/-- The authority of a URI that starts with neither "*" nor "/". -/
theorem httpAuthority_of_parts {scheme rest a path : CStr}
    (hs : (httpParseScheme uri).getD ([], uri) = (scheme, rest))
    (hauth : httpParseAuthority rest = (a, path))
    (hhead : ∀ c cs, uri = c :: cs → (c == 42 || c == 47) = false) :
    httpAuthority uri = hostPort a := by
  rcases uri with - | ⟨c, cs⟩
  · obtain ⟨rfl, rfl⟩ := Prod.mk.inj hs
    obtain ⟨rfl, rfl⟩ := Prod.mk.inj hauth
    rfl
  · rw [httpAuthority, httpUriAuthority]
    simp only [hhead c cs rfl, Bool.false_eq_true, if_false, hs, hauth]
    rfl

/-- A scheme that a part without "/" makes with the path. -/
theorem scheme_of_append {w path scheme rest : CStr} (hw : 47 ∉ w)
    (hpath : path = [] ∨ ∃ r, path = 47 :: r)
    (h : httpParseScheme (w ++ path) = some (scheme, rest)) :
    ∃ k, IsScheme k ∧ w = k ++ [58] ∧ 64 ∉ k ∧ [47, 47] <+: path := by
  obtain ⟨k, hk, rfl, happ⟩ := httpParseScheme_eq_some h
  have hchars : ∀ d ∈ k, d ≠ 47 ∧ d ≠ 64 := by
    rcases k with - | ⟨c, cs⟩
    · exact hk.elim
    · refine List.forall_mem_cons.mpr ⟨?_, fun d hd => ?_⟩
      · constructor <;> rintro rfl <;> exact absurd hk.1 (by decide)
      · have hd' := hk.2 d hd
        constructor <;> rintro rfl <;> exact absurd hd' (by decide)
  have hkey : w ++ path = (k ++ [58]) ++ 47 :: 47 :: rest := by
    rw [happ]
    simp
  -- both parts end at the first slash
  have hw' : ∀ d ∈ w, (d != 47) = true := fun d hd => by simpa using fun h : d = 47 => hw (h ▸ hd)
  have hk' : ∀ d ∈ k ++ [58], (d != 47) = true := by
    intro d hd
    rcases List.mem_append.mp hd with hd | hd
    · simpa using (hchars d hd).1
    · obtain rfl := List.mem_singleton.mp hd
      decide
  have htake := congrArg (List.takeWhile (· != 47)) hkey
  have hdrop := congrArg (List.dropWhile (· != 47)) hkey
  rw [List.takeWhile_append_of_pos hw', List.takeWhile_append_of_pos hk'] at htake
  rw [List.dropWhile_append_of_pos hw', List.dropWhile_append_of_pos hk'] at hdrop
  refine ⟨k, hk, ?_, fun h64 => (hchars 64 h64).2 rfl, rest, ?_⟩
  · rcases hpath with rfl | ⟨r, rfl⟩ <;> simpa using htake
  · rcases hpath with rfl | ⟨r, rfl⟩
    · simp at hdrop
    · simpa using hdrop.symm

/-- **The parser finds the value again** where it was put. -/
theorem HostReadsBack.authority_eq {host : CStr} (h : HostReadsBack uri host)
    (hne : httpAuthority uri ≠ []) : httpAuthority (uriWithHost uri host) = host := by
  rcases h with rfl | ⟨hslash, hat, hfirst⟩
  · rw [uriWithHost_authority]
  obtain ⟨scheme, rest, hs, hparts⟩ := httpUriAuthority_parts hne
  obtain ⟨hu, hpath⟩ := httpParseAuthority_parts rest
  have hrest : (httpParseAuthority rest).1 ++ (httpParseAuthority rest).2 = rest :=
    List.takeWhile_append_dropWhile
  rw [uriWithHost, hparts]
  rw [hparts] at hfirst
  generalize (httpParseAuthority rest).1 = a at hu hfirst hparts hrest
  generalize (httpParseAuthority rest).2 = path at hpath hfirst hparts hrest
  have hlast := userInfo_last a
  have huserSlash : 47 ∉ userInfo a := fun hm =>
    hu 47 (userInfo_append a ▸ List.mem_append_left _ hm) rfl
  have hw : 47 ∉ userInfo a ++ host := fun hm =>
    (List.mem_append.mp hm).elim huserSlash hslash
  have hauth : httpParseAuthority ((userInfo a ++ host) ++ path) = (userInfo a ++ host, path) :=
    httpParseAuthority_append (fun c hc h => hw (h ▸ hc)) hpath
  dsimp only
  split_ifs with heq
  · rw [httpAuthority, hparts, heq]
  have hport : hostPort (userInfo a ++ host) = host := hostPort_append hlast hat
  rw [List.append_assoc scheme, List.append_assoc scheme]
  rcases hscheme : httpParseScheme uri with - | ⟨s, r⟩
  · -- the URI has no scheme, and gets none
    rw [hscheme] at hs
    obtain ⟨rfl, rfl⟩ := Prod.mk.inj hs
    rw [List.nil_append] at hfirst ⊢
    have hnone : httpParseScheme ((userInfo a ++ host) ++ path) = none := by
      by_contra hsome
      obtain ⟨⟨s, r⟩, hsome⟩ := Option.ne_none_iff_exists'.mp hsome
      obtain ⟨k, hscheme, hk, hk64, hdouble⟩ := scheme_of_append hw hpath hsome
      rcases hlast with hnil | ⟨v, hv⟩
      · rw [hnil, List.nil_append] at hk
        exact (hfirst hnil).2 k hscheme hk hdouble
      · have h64 : 64 ∈ k ++ [58] := hk ▸ by simp [hv]
        rcases List.mem_append.mp h64 with h64 | h64
        · exact hk64 h64
        · exact absurd (List.mem_singleton.mp h64) (by decide)
    rcases hw' : userInfo a ++ host with - | ⟨d, ds⟩
    · -- nothing stands before the path
      rw [(List.append_eq_nil_iff.mp hw').2, List.nil_append]
      rcases hpath with rfl | ⟨t, rfl⟩ <;> rfl
    · rw [← hw']
      refine (httpAuthority_of_parts (by rw [hnone]; rfl) hauth fun c cs hcons => ?_).trans hport
      obtain rfl : d = c := by
        rw [hw', List.cons_append, List.cons.injEq] at hcons
        exact hcons.1
      rw [Bool.or_eq_false_iff, beq_eq_false_iff_ne, beq_eq_false_iff_ne]
      refine ⟨?_, fun h => hw (hw' ▸ h ▸ List.mem_cons_self)⟩
      rintro rfl
      rcases hui : userInfo a with - | ⟨u, us⟩
      · rw [hui, List.nil_append] at hw'
        exact (hfirst hui).1 (by rw [hw']; rfl)
      · -- the user info stands at the beginning of the URI already
        rw [hui, List.cons_append, List.cons.injEq] at hw'
        refine hne ?_
        rw [← hrest, ← userInfo_append a, hui, hw'.1]
        rfl
  · -- the URI keeps its scheme
    rw [hscheme] at hs
    obtain ⟨rfl, rfl⟩ := Prod.mk.inj hs
    obtain ⟨hnew, c, t, rfl, halpha⟩ :=
      httpParseScheme_of_scheme hscheme ((userInfo a ++ host) ++ path)
    refine (httpAuthority_of_parts (by rw [hnew]; rfl) hauth fun d ds hcons => ?_).trans hport
    obtain rfl : c = d := (List.cons.inj hcons).1
    rw [Bool.or_eq_false_iff, beq_eq_false_iff_ne, beq_eq_false_iff_ne]
    constructor <;> rintro rfl <;> exact absurd halpha (by decide)

theorem uriSound_of_authority {htx : Htx} {meth : HttpMeth} (hm : meth ≠ .connect)
    (hone : htx.hosts.length ≤ 1) (hfit : (httpAuthority uri).length < 2 ^ 20) :
    UriSound htx meth uri uri := by
  have ha : hostAuthority meth uri = httpAuthority uri := if_neg hm
  rcases hlen : htx.hosts with - | ⟨v, vs⟩
  · exact .inr (.inl hlen)
  · rw [hlen, List.length_cons] at hone
    refine .inr (.inr ⟨?_, ?_, ?_⟩)
    · rw [hlen, List.length_cons]
      omega
    · rwa [ha]
    · rw [ha]
      exact hostReadsBack_authority uri

theorem httpReturnHdr_full (blk : ℕ) (v : CStr) :
    (httpReturnHdr true blk 0 v).lwsBefore = (httpReturnHdr true blk 0 v).off ∧
      (httpReturnHdr true blk 0 v).off + (httpReturnHdr true blk 0 v).len +
        (httpReturnHdr true blk 0 v).lwsAfter = v.length := by
  obtain ⟨hsplit, hafter⟩ := length_lws v
  simp only [httpReturnHdr, if_true]
  exact ⟨by omega, by omega⟩

/-- The start line behind the value `v` of a host header. -/
def HtxSl.written (sl : HtxSl) (v : CStr) : HtxSl :=
  if sl.flags.hasAuthority then { sl with p2 := uriWithHost sl.p2 v } else sl

/-- The message behind the value `v` of a host header.  A URI that is said to have an
authority has one. -/
structure Htx.HostWritten (htx : Htx) (sl : HtxSl) (pre post : List (CStr × CStr)) (v : CStr) :
    Prop where
  isReq : htx.IsReq (sl.written v) (pre ++ (bytes "host", v) :: post)
  authority : sl.flags.hasAuthority = true → httpAuthority sl.p2 ≠ []

namespace Htx.IsReq

variable {htx htx' : Htx} {sl : HtxSl} {hdrs pre post : List (CStr × CStr)} {v w : CStr}
  {ctx ctx' : HttpHdrCtx}

/-- A host header is written, and then the URI.  When the URI has an authority, the
context goes back to the first host header. -/
theorem httpReplaceHeaderValue (h : htx.IsReq sl (pre ++ (bytes "host", v) :: post))
    (hblk : ctx.blk = pre.length + 1) (hoff : ctx.lwsBefore ≤ ctx.off)
    (hend : ctx.off + ctx.len + ctx.lwsAfter ≤ v.length) {data : CStr}
    (hw : (newHdrValue htx ctx data).length < 2 ^ 20)
    (hr : SmartHAProxy.httpReplaceHeaderValue htx ctx data = (htx', some ctx')) :
    htx'.HostWritten sl pre post (newHdrValue htx ctx data) ∧
      (sl.flags.hasAuthority = true →
        (httpFindHeader htx' (bytes "host") none true).map HttpHdrCtx.blk = some ctx'.blk) := by
  have hstart : ctx.off - ctx.lwsBefore + (ctx.lwsBefore + ctx.len + ctx.lwsAfter) =
      ctx.off + ctx.len + ctx.lwsAfter := by omega
  have hnew := h.newHdrValue_eq hblk data
  rw [← hstart] at hnew hend
  rw [hnew] at hw ⊢
  simp only [SmartHAProxy.httpReplaceHeaderValue, hblk] at hr
  split at hr
  next => cases hr
  next htx1 hr1 =>
    have h1 := h.replaceBlkValue hend hw hr1
    obtain ⟨tl, hh1⟩ := h1.holds
    have hf1 := hh1.fits _ (List.mem_append_right pre List.mem_cons_self)
    simp only [h1.stline, hh1.blks_get, Option.map_some, Option.getD_some, hdrBlk_name hf1,
      hdrBlk_value hf1, and_true] at hr
    split_ifs at hr with hauth
    · split at hr
      next => cases hr
      next htx2 hu =>
        obtain ⟨h2, hne⟩ := h1.updateAuthority hu
        obtain ⟨rfl, hfind⟩ := Prod.mk.inj hr
        obtain ⟨c, hc, rfl⟩ := Option.map_eq_some_iff.mp hfind
        refine ⟨⟨?_, fun _ => hne⟩, fun _ => ?_⟩
        · rwa [HtxSl.written, if_pos hauth]
        · rw [hc]
          rfl
    · cases hr
      refine ⟨⟨?_, fun hf => absurd hf hauth⟩, fun hf => absurd hf hauth⟩
      rwa [HtxSl.written, if_neg hauth]

theorem httpReplaceHeaderValue_whole (h : htx.IsReq sl (pre ++ (bytes "host", v) :: post))
    (hw : w.length < 2 ^ 20)
    (hr : SmartHAProxy.httpReplaceHeaderValue htx (httpReturnHdr true (pre.length + 1) 0 v) w =
      (htx', some ctx')) :
    htx'.HostWritten sl pre post w ∧
      (sl.flags.hasAuthority = true →
        (httpFindHeader htx' (bytes "host") none true).map HttpHdrCtx.blk = some ctx'.blk) := by
  obtain ⟨hoff, hend⟩ := httpReturnHdr_full (pre.length + 1) v
  have hnew : newHdrValue htx (httpReturnHdr true (pre.length + 1) 0 v) w = w := by
    rw [h.newHdrValue_eq rfl, hoff, hend, Nat.sub_self, List.take_zero, List.drop_length]
    simp
  have hwrite := h.httpReplaceHeaderValue rfl (Nat.le_of_eq hoff) (Nat.le_of_eq hend)
    (by rwa [hnew]) hr
  rwa [hnew] at hwrite

theorem httpReplaceHeader (h : htx.IsReq sl (pre ++ (bytes "host", v) :: post))
    (hblk : ctx.blk = pre.length + 1) {name : CStr} (hn : isteqi name (bytes "host") = true)
    (hw : w.length < 2 ^ 20) {blk : Option ℕ}
    (hr : SmartHAProxy.httpReplaceHeader htx ctx name w = (htx', some blk)) :
    htx'.HostWritten sl pre post w := by
  simp only [SmartHAProxy.httpReplaceHeader, hblk] at hr
  split at hr
  next => cases hr
  next htx1 hr1 =>
    have h1 := h.replaceHeader hn hw hr1
    simp only [h1.stline, hn, and_true] at hr
    split_ifs at hr with hauth
    · split at hr
      next => cases hr
      next htx2 hu =>
        obtain ⟨rfl, -⟩ := Prod.mk.inj hr
        obtain ⟨h2, hne⟩ := h1.updateAuthority hu
        refine ⟨?_, fun _ => hne⟩
        rwa [HtxSl.written, if_pos hauth]
    · cases hr
      refine ⟨?_, fun hf => absurd hf hauth⟩
      rwa [HtxSl.written, if_neg hauth]

theorem agree_only (h : htx.IsReq sl (pre ++ (bytes "host", v) :: post))
    (h' : htx'.HostWritten sl pre post w)
    (hone : htx.hosts.length ≤ 1) (hback : HostReadsBack sl.p2 w)
    (hauth : sl.flags.hasAuthority = true) : htx'.HostsAgree := by
  rw [h'.isReq.hostsAgree_iff, HtxSl.written, if_pos hauth]
  rw [h.hosts_eq, List.length_map] at hone
  have hname : isteqi (bytes "host") (bytes "host") = true := by decide
  obtain ⟨hpre, hpost⟩ := noHost_of_filter (h := (bytes "host", v)) hname hone
  intro k hk hn
  rcases List.mem_append.mp hk with hk | hk
  · rw [hpre k hk] at hn
    cases hn
  · rcases List.mem_cons.mp hk with rfl | hk
    · exact (hback.authority_eq (h'.authority hauth)).symm
    · rw [hpost k hk] at hn
      cases hn

theorem agree_same (h : htx.IsReq sl (pre ++ (bytes "host", v) :: post))
    (h' : htx'.HostWritten sl pre post w)
    (heq : w = httpAuthority sl.p2) (hag : htx.HostsAgree)
    (hauth : sl.flags.hasAuthority = true) : htx'.HostsAgree := by
  have hp2 : uriWithHost sl.p2 w = sl.p2 := by rw [heq, uriWithHost_authority]
  have hold := h.hostsAgree_iff.mp hag
  rw [h'.isReq.hostsAgree_iff, HtxSl.written, if_pos hauth]
  show ∀ k ∈ pre ++ (bytes "host", w) :: post, isteqi k.1 (bytes "host") = true →
    k.2 = httpAuthority (uriWithHost sl.p2 w)
  rw [hp2]
  intro k hk hn
  rcases List.mem_append.mp hk with hk | hk
  · exact hold k (List.mem_append_left _ hk) hn
  · rcases List.mem_cons.mp hk with rfl | hk
    · exact heq
    · exact hold k (by simp [hk]) hn

theorem agree_written (h : htx.IsReq sl (pre ++ (bytes "host", v) :: post))
    (h' : htx'.HostWritten sl pre post w)
    (hs : ValueSound htx w) (hag : sl.flags.hasAuthority = true → htx.HostsAgree)
    (hauth : sl.flags.hasAuthority = true) : htx'.HostsAgree := by
  rcases hs.2 sl h.stline hauth with heq | ⟨hone, hback⟩
  · exact h.agree_same h' heq (hag hauth) hauth
  · exact h.agree_only h' hone hback hauth

theorem written_flags (sl : HtxSl) (v : CStr) : (sl.written v).flags = sl.flags := by
  rw [HtxSl.written]
  split_ifs <;> rfl

end Htx.IsReq

/-! ### The steps -/

/-- A request whose host headers agree with the URI that is said to have an authority. -/
def Htx.Kept (htx : Htx) : Prop :=
  ∃ sl hdrs, htx.IsReq sl hdrs ∧ (sl.flags.hasAuthority = true → htx.HostsAgree)

theorem updateHosts_succ {authority : CStr} {htx : Htx} {ctx : Option HttpHdrCtx}
    (h : updateHosts authority fuel htx ctx = some r) :
    updateHosts authority (fuel + 1) htx ctx = some r := by
  induction fuel generalizing htx ctx with
  | zero => cases h
  | succ fuel ih =>
    rw [updateHosts] at h ⊢
    split at h
    next => exact h
    next c _ =>
      split at h
      next => exact h
      next => exact ih h

theorem httpUpdateHost_succ {htx : Htx} {sl : HtxSl} (h : httpUpdateHost fuel htx sl uri = some r) :
    httpUpdateHost (fuel + 1) htx sl uri = some r := by
  simp only [httpUpdateHost] at h ⊢
  split_ifs at h ⊢
  · exact h
  · exact h
  · exact updateHosts_succ h

theorem HostOp.exec_succ {op : HostOp} {htx : Htx} (h : op.exec fuel htx = some r) :
    op.exec (fuel + 1) htx = some r := by
  cases op with
  | updateHost uri =>
    simp only [HostOp.exec] at h ⊢
    split at h
    next => exact h
    next => exact httpUpdateHost_succ h
  | replaceReqUri uri =>
    simp only [HostOp.exec, httpReplaceReqUri] at h ⊢
    split at h
    next => exact h
    next =>
      split at h
      next => exact h
      next =>
        split at h
        next => exact h
        next => exact httpUpdateHost_succ h
  | replaceHeader ctx name value => exact h
  | replaceHeaderValue ctx data => exact h

namespace Htx.IsReq

variable {htx htx' : Htx} {sl : HtxSl} {hdrs : List (CStr × CStr)}

theorem kept_of_hosts (h : htx.IsReq sl hdrs) (hnil : htx.hosts = []) : htx.Kept := by
  refine ⟨sl, hdrs, h, fun _ sl' _ v hv => ?_⟩
  rw [hnil] at hv
  cases hv

/-- The loop of `http_update_host` visits at most one header. -/
theorem updateHosts (h : htx.IsReq sl hdrs) (hauth : sl.flags.hasAuthority = true)
    {authority : CStr}
    (hs : htx.hosts = [] ∨
      (htx.hosts.length = 1 ∧ authority.length < 2 ^ 20 ∧ HostReadsBack sl.p2 authority)) (fuel : ℕ) :
    ∃ r, SmartHAProxy.updateHosts authority (fuel + 2) htx none = some r ∧
      (r.2 = true → r.1.Kept) := by
  rcases hs with hnil | ⟨hone, hfit, hback⟩
  · have hno : NoHost hdrs := by
      rw [h.hosts_eq, List.map_eq_nil_iff, List.filter_eq_nil_iff] at hnil
      exact fun k hk => by simpa using hnil k hk
    refine ⟨(htx, true), ?_, fun _ => h.kept_of_hosts hnil⟩
    rw [SmartHAProxy.updateHosts, h.findHeader_none hno]
  · -- the only host header
    have hfilter := hone
    rw [h.hosts_eq, List.length_map] at hfilter
    obtain ⟨k, hk⟩ := List.exists_mem_of_length_pos (by omega :
      0 < (hdrs.filter fun h => isteqi h.1 (bytes "host")).length)
    obtain ⟨hk, hn⟩ := List.mem_filter.mp hk
    obtain ⟨pre, post, rfl⟩ := List.append_of_mem hk
    obtain ⟨n, v⟩ := k
    obtain rfl : n = bytes "host" := h.name_eq hk hn
    obtain ⟨hpre, hpost⟩ := noHost_of_filter hn (Nat.le_of_eq hfilter)
    obtain ⟨tl, hh⟩ := h.holds
    rw [SmartHAProxy.updateHosts, hh.findHeader_first hpre true]
    simp only
    rcases hr : SmartHAProxy.httpReplaceHeaderValue htx
      (httpReturnHdr true (pre.length + 1) 0 v) authority with ⟨htx', - | c⟩
    · refine ⟨_, rfl, fun hf => ?_⟩
      cases hf
    · obtain ⟨h', hfirst⟩ := h.httpReplaceHeaderValue_whole hfit hr
      have hblk : c.blk = pre.length + 1 := by
        rw [← Option.some.injEq, ← hfirst hauth, h'.isReq.findHeader_host hpre]
      refine ⟨(htx', true), ?_, fun _ => ⟨_, _, h'.isReq, fun _ => ?_⟩⟩
      · -- the second turn finds no other one
        show SmartHAProxy.updateHosts authority (fuel + 1) htx' (some c) = some (htx', true)
        rw [SmartHAProxy.updateHosts, h'.isReq.findHeader_behind hpost hblk]
      · exact h.agree_only h' (Nat.le_of_eq hone) hback hauth

theorem httpUpdateHost (h : htx.IsReq sl hdrs) (hs : UriSound htx sl.meth sl.p2 uri) (fuel : ℕ) :
    ∃ r, SmartHAProxy.httpUpdateHost (fuel + 2) htx sl uri = some r ∧
      (r.2 = true → r.1.Kept) := by
  rw [SmartHAProxy.httpUpdateHost]
  split_ifs with hno
  · -- the flag is cleared
    refine ⟨_, rfl, fun _ =>
      ⟨_, hdrs, h.setSlFlags fun flags => { flags with hasAuthority := false }, fun hf => ?_⟩⟩
    cases hf
  · simp only
    split_ifs with hnil
    · refine ⟨_, rfl, fun hf => ?_⟩
      cases hf
    · have h' := h.setSlFlags (hostFlags sl.meth uri)
      have hhosts : (httpSetSlFlags htx (hostFlags sl.meth uri)).hosts = htx.hosts := by
        rw [h'.hosts_eq, h.hosts_eq]
      apply h'.updateHosts
      · show (hostFlags sl.meth uri sl.flags).hasAuthority = true
        rw [hostFlags]
        split_ifs <;> rfl
      · rw [hhosts]
        exact hs.resolve_left hno

end Htx.IsReq

/-- **One step**: an operation under its condition ends, and the headers agree
when it succeeds. -/
theorem HostOp.exec_sound {htx : Htx} {sl : HtxSl} {hdrs : List (CStr × CStr)}
    (h : htx.IsReq sl hdrs) {op : HostOp} (hon : op.OnHost htx) (hs : op.Sound htx) (fuel : ℕ) :
    ∃ r, op.exec (fuel + 2) htx = some r ∧
      ((sl.flags.hasAuthority = true → htx.HostsAgree) → r.2 = true → r.1.Kept) := by
  cases op with
  | updateHost uri =>
    obtain ⟨r, hr, hk⟩ := h.httpUpdateHost (hs sl h.stline) fuel
    refine ⟨r, ?_, fun _ => hk⟩
    simp only [HostOp.exec, h.stline]
    exact hr
  | replaceReqUri uri =>
    simp only [HostOp.exec, httpReplaceReqUri, h.stline]
    rcases hr : httpReplaceStline htx sl.p1 uri sl.p3 with - | htx'
    · refine ⟨_, rfl, fun _ hf => ?_⟩
      cases hf
    · have h' := h.replaceStline hr
      -- the new start line has the same headers behind it
      have hs' : UriSound htx' sl.meth uri uri := by
        have hs0 := hs sl h.stline
        rwa [UriSound, h.hosts_eq, ← h'.hosts_eq] at hs0
      obtain ⟨r, hr, hk⟩ := h'.httpUpdateHost hs' fuel
      refine ⟨r, ?_, fun _ => hk⟩
      simp only [h'.stline]
      exact hr
  | replaceHeader ctx name value =>
    obtain ⟨pre, v, post, rfl, hblk, -⟩ := h.of_hostCtx hon.1
    simp only [HostOp.exec]
    refine ⟨_, rfl, fun hag hok => ?_⟩
    rcases hr : httpReplaceHeader htx ctx name value with ⟨htx', - | blk⟩
    · rw [hr] at hok
      cases hok
    · have h' := h.httpReplaceHeader hblk hon.2 hs.1 hr
      refine ⟨_, _, h'.isReq, fun hauth => ?_⟩
      rw [Htx.IsReq.written_flags] at hauth
      exact h.agree_written h' hs hag hauth
  | replaceHeaderValue ctx data =>
    obtain ⟨pre, v, post, rfl, hblk, hend⟩ := h.of_hostCtx hon
    simp only [HostOp.exec]
    refine ⟨_, rfl, fun hag hok => ?_⟩
    rcases hr : httpReplaceHeaderValue htx ctx data with ⟨htx', - | c⟩
    · rw [hr] at hok
      cases hok
    · obtain ⟨h', -⟩ := h.httpReplaceHeaderValue hblk hon.off hend hs.1 hr
      refine ⟨_, _, h'.isReq, fun hauth => ?_⟩
      rw [Htx.IsReq.written_flags] at hauth
      exact h.agree_written h' hs hag hauth

/-! ### Runs -/

theorem HostRuns.kept {htx₀ htx : Htx} (h₀ : htx₀.Kept)
    (hrun : HostRuns (fun htx op => op.Sound htx) htx₀ htx) : htx.Kept := by
  induction hrun with
  | refl => exact h₀
  | step _ hon hs hexec ih =>
    obtain ⟨sl, hdrs, h, hag⟩ := ih
    obtain ⟨r, hr, hk⟩ := HostOp.exec_sound h hon hs _
    have hexec' := HostOp.exec_succ (HostOp.exec_succ hexec)
    rw [hexec', Option.some.injEq] at hr
    rw [← hr] at hk
    exact hk hag rfl

/-- **Hosts and authority**: as long as every step meets its condition, every
operation ends, and in every message reached the host headers agree with a URI
that is said to have an authority. -/
theorem hostRuns_agree {htx : Htx} {sl : HtxSl} {hdrs : List (CStr × CStr)}
    (h : htx.IsReq sl hdrs) :
    HostsEnd (fun htx op => op.Sound htx) htx ∧ HostsStay (fun htx op => op.Sound htx) htx := by
  constructor
  · intro op hon hs
    obtain ⟨r, hr, -⟩ := HostOp.exec_sound h hon hs 0
    exact ⟨2, r, hr⟩
  · intro hag₀ htx' hrun sl₁ hsl hauth
    obtain ⟨sl', hdrs', h', hag⟩ := hrun.kept ⟨sl, hdrs, h, fun _ => hag₀⟩
    rw [h'.stline, Option.some.injEq] at hsl
    exact hag (hsl ▸ hauth)

/-! ### One and two host headers -/

/-- A request to the authority "a" with one host header. -/
def oneHost : Htx where
  size := 1024
  data := 93
  blks :=
    [slBlk ⟨{ hasAuthority := true }, .get, bytes "GET", bytes "http://a/", bytes "HTTP/1.1"⟩,
      hdrBlk (bytes "host", bytes "a"), eohBlk]
  parsingError := false
  eom := true

/-- With one host header, a new URI is written to the header. -/
theorem hostRuns_agree_one :
    (∃ fuel r, (HostOp.replaceReqUri (bytes "http://b/")).exec fuel oneHost = some r) ∧
      HostsStay (fun htx op => op.Sound htx) oneHost := by
  have hreq : oneHost.IsReq
      ⟨{ hasAuthority := true }, .get, bytes "GET", bytes "http://a/", bytes "HTTP/1.1"⟩
      [(bytes "host", bytes "a")] := by
    refine ⟨⟨[], rfl, by decide, ?_, by decide, by decide⟩, ?_⟩
    · intro h hm
      obtain rfl := List.mem_singleton.mp hm
      exact ⟨by decide, by decide⟩
    · intro h hm
      obtain rfl := List.mem_singleton.mp hm
      decide
  obtain ⟨hend, hstay⟩ := hostRuns_agree hreq
  refine ⟨hend _ trivial fun sl hsl => ?_, hstay⟩
  cases hsl
  exact uriSound_of_authority (by decide) (by decide) (by decide)

/-- A request to the authority "a" with two host headers. -/
def twoHosts : Htx where
  size := 1024
  data := 98
  blks :=
    [slBlk ⟨{ hasAuthority := true }, .get, bytes "GET", bytes "http://a/", bytes "HTTP/1.1"⟩,
      hdrBlk (bytes "host", bytes "a"), hdrBlk (bytes "host", bytes "a"), eohBlk]
  parsingError := false
  eom := true

/-- The message behind the second turn of the loop. -/
def twoHostsB : Htx where
  size := 1024
  data := 98
  blks :=
    [slBlk ⟨hostFlags .get (bytes "http://b/") { hasAuthority := true }, .get, bytes "GET",
        bytes "http://b/", bytes "HTTP/1.1"⟩,
      hdrBlk (bytes "host", bytes "b"), hdrBlk (bytes "host", bytes "b"), eohBlk]
  parsingError := false
  eom := true

theorem twoHosts_isReq : twoHosts.IsReq
    ⟨{ hasAuthority := true }, .get, bytes "GET", bytes "http://a/", bytes "HTTP/1.1"⟩
    [(bytes "host", bytes "a"), (bytes "host", bytes "a")] := by
  refine ⟨⟨[], rfl, by decide, ?_, by decide, by decide⟩, ?_⟩
  · intro h hm
    obtain rfl : h = (bytes "host", bytes "a") := by simpa using hm
    exact ⟨by decide, by decide⟩
  · intro h hm
    obtain rfl : h = (bytes "host", bytes "a") := by simpa using hm
    decide

theorem twoHostsB_loop (fuel : ℕ) :
    updateHosts (bytes "b") fuel twoHostsB (some ⟨1, 0, 1, 0, 0⟩) = none := by
  induction fuel with
  | zero => rfl
  | succ fuel ih =>
    have hfind : httpFindHeader twoHostsB (bytes "host") (some ⟨1, 0, 1, 0, 0⟩) true =
        some ⟨2, 0, 1, 0, 0⟩ := by decide
    have hreplace : httpReplaceHeaderValue twoHostsB ⟨2, 0, 1, 0, 0⟩ (bytes "b") =
        (twoHostsB, some ⟨1, 0, 1, 0, 0⟩) := by decide
    simp only [updateHosts, hfind, hreplace]
    exact ih

/-- With two host headers, a new URI is a loop without end, and a new value for
the first header leaves the second one behind. -/
theorem not_hostRuns_agree :
    ¬ HostsEnd (fun _ _ => True) twoHosts ∧ ¬ HostsStay (fun _ _ => True) twoHosts := by
  constructor
  · intro hend
    obtain ⟨fuel, r, hr⟩ := hend (.replaceReqUri (bytes "http://b/")) trivial trivial
    -- two turns write the two headers
    have hr2 := HostOp.exec_succ (HostOp.exec_succ hr)
    have hloop : (HostOp.replaceReqUri (bytes "http://b/")).exec (fuel + 2) twoHosts =
        updateHosts (bytes "b") fuel twoHostsB (some ⟨1, 0, 1, 0, 0⟩) := rfl
    rw [hloop, twoHostsB_loop] at hr2
    cases hr2
  · intro hstay
    have hctx : HostCtx twoHosts ⟨1, 0, 1, 0, 0⟩ :=
      ⟨⟨hdrBlk (bytes "host", bytes "a"), by decide, by decide, by decide, by decide⟩, by decide⟩
    have hexec : HostOp.exec 0 twoHosts (.replaceHeaderValue ⟨1, 0, 1, 0, 0⟩ (bytes "b")) =
        some ((httpReplaceHeaderValue twoHosts ⟨1, 0, 1, 0, 0⟩ (bytes "b")).1, true) := rfl
    have hrun : HostRuns (fun _ _ => True) twoHosts
        (httpReplaceHeaderValue twoHosts ⟨1, 0, 1, 0, 0⟩ (bytes "b")).1 := by
      refine .step .refl ?_ trivial hexec
      exact hctx
    have hag := hstay (twoHosts_isReq.hostsAgree_iff.mpr (by decide)) _ hrun _ rfl rfl _ rfl
      (bytes "a") (by decide)
    revert hag
    decide

end SmartHAProxy
