/-
HTTP/2 requests in HTX are safe to forward (h2.c).

Behind the loop over the headers come those of an extended CONNECT, a host that
is still missing, the cookies and the end of the headers; then the target is
normalized.

`h2_request_safe` says what an accepted request looks like.  It leaves three slips
out: a first content-length header that is blank is forwarded as it is; cookies
are joined without a look at the 20 bits of the length; and a list of hosts is
normalized with a name that may have been overwritten.
-/
import SmartHAProxy.H2.Safe

namespace SmartHAProxy

variable {htx htx' : Htx} {n : CStr} {vs : List CStr} {msgf : H2Msgf} {h : CStr × CStr}
  {list : List H2Hdr}

/-! ### Behind the loop -/

theorem Htx.Holds.of_eq {sl : HtxSl} {hdrs : List (CStr × CStr)} {tl : List HtxBlk}
    (hh : htx.Holds sl hdrs tl) (hb : htx'.blks = htx.blks) (hs : htx'.size = htx.size)
    (hd : htx'.data = htx.data) : htx'.Holds sl hdrs tl := by
  refine ⟨hb.trans hh.blks, hs ▸ hh.size, hh.fits, hd ▸ hh.data, ?_⟩
  rw [hb, hs, hd]
  exact hh.room

theorem Htx.Holds.setSlFlags {sl : HtxSl} {hdrs : List (CStr × CStr)} {tl : List HtxBlk}
    (hh : htx.Holds sl hdrs tl) (clen bodyless connUpg : Bool) :
    ∃ sl', (h2SetSlFlags htx clen bodyless connUpg).Holds sl' hdrs tl ∧ sl'.p2 = sl.p2 ∧
      sl'.flags.hasSchm = sl.flags.hasSchm := by
  have hroom := hh.room
  rw [hh.blks] at hroom
  rw [h2SetSlFlags, hh.blks]
  simp only [slBlk]
  exact ⟨{ sl with flags := { sl.flags with
    clen := sl.flags.clen || clen
    bodyless := sl.flags.bodyless || bodyless
    connUpg := sl.flags.connUpg || connUpg } }, ⟨rfl, hh.size, hh.fits, hh.data, hroom⟩, rfl, rfl⟩

def joinCookies : List CStr → CStr
  | [] => []
  | v :: vs => v ++ vs.flatMap fun w => bytes "; " ++ w

/-- The value of the last header gets longer, within the 20 bits of its length. -/
theorem Htx.Holds.extendTail {sl : HtxSl} {hdrs : List (CStr × CStr)} {v : CStr} (more : CStr)
    (hh : htx.Holds sl (hdrs ++ [(n, v)]) []) (hlen : (v ++ more).length ≤ 1048575)
    (hroom : htx.data + more.length + htx.blks.length * 8 ≤ htx.size)
    (he : htxExtendTail htx (v.length + more.length) more = htx') :
    htx'.Holds sl (hdrs ++ [(n, v ++ more)]) [] ∧ htx'.data = htx.data + more.length ∧
      htx'.size = htx.size ∧ htx'.blks.length = htx.blks.length := by
  have hf : HdrFits (n, v) := hh.fits _ (by simp)
  have hb : htx.blks = (slBlk sl :: hdrs.map hdrBlk) ++ [hdrBlk (n, v)] := by
    rw [hh.blks]
    simp
  have hlast : htx.blks.getLast? = some (hdrBlk (n, v)) := by
    rw [hb, List.getLast?_concat]
  have hinit : htx.blks.dropLast = slBlk sl :: hdrs.map hdrBlk := by
    rw [hb, List.dropLast_concat]
  have hdata := hh.data
  have hinfo : (hdrBlk (n, v)).infoWithLen (v.length + more.length) =
      (hdrBlk (n, v ++ more)).info := by
    rw [← List.length_append]
    exact hdrBlk_infoWithLen hf hlen
  rw [hdrsSize_append] at hdata
  simp only [hdrsSize, List.map_cons, List.map_nil, List.sum_cons, List.sum_nil] at hdata
  simp only [htxExtendTail, hlast, hdrBlk_named hf, if_true, hdrBlk_valueLen hf, hinit, hinfo]
    at he
  subst he
  have hlen' : htx.blks.length = hdrs.length + 2 := by
    rw [hb]
    simp
  refine ⟨⟨?_, hh.size, ?_, ?_, ?_⟩, by dsimp only; omega, rfl, by simp [hlen']⟩
  · simp [hdrBlk, HtxBlk.bytes]
  · intro h hm
    rcases List.mem_append.mp hm with hm | hm
    · exact hh.fits h (List.mem_append_left _ hm)
    · rw [List.mem_singleton.mp hm]
      exact ⟨hf.1, hlen⟩
  · rw [hdrsSize_append]
    simp only [hdrsSize, List.map_cons, List.map_nil, List.sum_cons, List.sum_nil,
      List.length_append]
    omega
  · simp only [List.length_append, List.length_cons, List.length_map, List.length_nil]
    omega

theorem Htx.Holds.joinCookies {fs : ℕ} {sl : HtxSl} {hdrs : List (CStr × CStr)} {v : CStr}
    (hh : htx.Holds sl (hdrs ++ [(n, v)]) [])
    (hlen : (v ++ vs.flatMap fun w => bytes "; " ++ w).length ≤ 1048575)
    (hroom : htx.data + (fs - v.length) + htx.blks.length * 8 ≤ htx.size)
    (h : h2JoinCookies fs v.length htx vs = some htx') :
    htx'.Holds sl (hdrs ++ [(n, v ++ vs.flatMap fun w => bytes "; " ++ w)]) [] := by
  induction vs generalizing htx v with
  | nil =>
    cases h
    simpa using hh
  | cons w vs ih =>
    simp only [h2JoinCookies] at h
    split_ifs at h with hfs
    have hlw : (bytes "; " ++ w).length = w.length + 2 := by
      rw [List.length_append, Nat.add_comm]
      rfl
    rw [List.flatMap_cons, ← List.append_assoc] at hlen ⊢
    have hlen1 : (v ++ (bytes "; " ++ w)).length ≤ 1048575 := by
      rw [List.length_append] at hlen
      omega
    have hvl : (v ++ (bytes "; " ++ w)).length = v.length + (w.length + 2) := by
      rw [List.length_append, hlw]
    generalize hx : htxExtendTail htx (v.length + (w.length + 2)) (bytes "; " ++ w) = htx1 at h
    rw [← hlw] at hx
    obtain ⟨hext, hd, hs, hb⟩ := hh.extendTail _ hlen1 (by omega) hx
    rw [← hvl] at h
    refine ih hext hlen ?_ h
    omega

/-- The cookie header, if there are cookies. -/
def cookieHdrs : List CStr → List (CStr × CStr)
  | [] => []
  | vs => [(bytes "cookie", joinCookies vs)]

theorem Htx.Holds.addCookies {sl : HtxSl} {hdrs : List (CStr × CStr)} (hh : htx.Holds sl hdrs [])
    (hlen : (SmartHAProxy.joinCookies vs).length ≤ 1048575) (h : h2AddCookies htx vs = some htx') :
    htx'.Holds sl (hdrs ++ cookieHdrs vs) [] := by
  cases vs with
  | nil =>
    cases h
    simpa [cookieHdrs] using hh
  | cons v vs =>
    simp only [h2AddCookies] at h
    split at h
    next => cases h
    next htx1 hadd =>
      have h1 := hh.addHeader (by decide) hadd
      have hname : (bytes "cookie").map istLc = bytes "cookie" := by decide
      rw [hname] at h1
      refine h1.joinCookies hlen ?_ h
      have := h1.room
      simp only [htxFreeDataSpace, htxFreeSpace]
      omega

def upgradeHdrs (ext : Bool) (prot : CStr) : List (CStr × CStr) :=
  if ext then [(bytes "upgrade", prot), (bytes "connection", bytes "upgrade")] else []

theorem Htx.Holds.addUpgrade {sl : HtxSl} {hdrs : List (CStr × CStr)} {prot : CStr}
    (hh : htx.Holds sl hdrs []) (h : h2AddUpgrade htx msgf prot = some htx') :
    htx'.Holds sl (hdrs ++ upgradeHdrs msgf.extConnect prot) [] := by
  simp only [h2AddUpgrade] at h
  split_ifs at h with he
  · rw [Option.bind_eq_some_iff] at h
    obtain ⟨htx1, h1, h2⟩ := h
    have hx := (hh.addHeader (by decide) h1).addHeader (by decide) h2
    have hu : (bytes "upgrade").map istLc = bytes "upgrade" := by decide
    have hc : (bytes "connection").map istLc = bytes "connection" := by decide
    rw [hu, hc, List.append_assoc] at hx
    rw [upgradeHdrs, if_pos he]
    exact hx
  · cases h
    rw [upgradeHdrs, if_neg he, List.append_nil]
    exact hh

/-- The host that no regular header brought along. -/
def missingHost (fields : List ℕ) (auth : CStr) : List (CStr × CStr) :=
  if h2PhdrAuth ∈ fields ∧ h2PhdrHost ∉ fields then [(bytes "host", auth)] else []

theorem Htx.Holds.addHost {sl : HtxSl} {hdrs : List (CStr × CStr)} {fields : List ℕ} {auth : CStr}
    (hh : htx.Holds sl hdrs []) (h : h2AddHost htx fields auth = some htx') :
    htx'.Holds sl (hdrs ++ missingHost fields auth) [] := by
  simp only [h2AddHost] at h
  split_ifs at h with hm
  · have hx := hh.addHeader (by decide) h
    have hn : (bytes "host").map istLc = bytes "host" := by decide
    rw [hn] at hx
    rw [missingHost, if_pos hm]
    exact hx
  · cases h
    rw [missingHost, if_neg hm, List.append_nil]
    exact hh

def finalHdrs (st : H2ReqState) (hdrs : List (CStr × CStr)) : List (CStr × CStr) :=
  hdrs ++ upgradeHdrs st.msgf.extConnect (st.phdrVal h2PhdrProt) ++
    missingHost st.fields (st.phdrVal h2PhdrAuth) ++ cookieHdrs st.cookies

theorem H2Regular.finish {trash : ℕ} {st : H2ReqState} {sl : HtxSl} {hdrs : List (CStr × CStr)}
    (hr : H2Regular trash st sl hdrs) (hlen : (joinCookies st.cookies).length ≤ 1048575)
    (h : h2FinishHeaders st = some (htx, msgf)) :
    ∃ sl', htx.Holds sl' (finalHdrs st hdrs) [eohBlk] ∧ sl'.p2 = sl.p2 ∧
      sl'.flags.hasSchm = sl.flags.hasSchm := by
  simp only [h2FinishHeaders] at h
  generalize hmsgf : (if st.msgf.bodyTunnel = true then
    { st.msgf with body := false, bodyCl := false } else st.msgf) = m at h
  have hext : m.extConnect = st.msgf.extConnect := by
    rw [← hmsgf]
    split_ifs <;> rfl
  generalize (!m.body || (m.bodyCl && st.bodyLen == 0) || m.bodyTunnel) = bodyless at h
  rw [Option.bind_eq_some_iff] at h
  obtain ⟨htx1, h1, h⟩ := h
  rw [Option.bind_eq_some_iff] at h
  obtain ⟨htx2, h2, h⟩ := h
  rw [Option.bind_eq_some_iff] at h
  obtain ⟨htx3, h3, h⟩ := h
  rw [Option.map_eq_some_iff] at h
  obtain ⟨htx4, h4, hres⟩ := h
  cases hres
  have hx0 : Htx.Holds { st.htx with eom := st.htx.eom || bodyless } sl hdrs [] :=
    hr.holds.of_eq rfl rfl rfl
  have hx1 := hx0.addUpgrade h1
  rw [hext] at hx1
  obtain ⟨sl', hx1', hp2, hschm⟩ := hx1.setSlFlags st.clen bodyless msgf.extConnect
  exact ⟨sl', ((hx1'.addHost h2).addCookies hlen h3).addEndof h4, hp2, hschm⟩

/-! ### What the headers are -/

/-- The headers that an extended CONNECT adds. -/
def extConnectHdrs (list : List H2Hdr) : List (CStr × CStr) :=
  match pseudoValue list h2PhdrMeth, pseudoValue list h2PhdrProt with
  | some meth, some prot => upgradeHdrs (meth == bytes "CONNECT") prot
  | _, _ => []

/-- Headers that can be forwarded.  `expect` is the host for an authority. -/
structure HdrsSafe (list : List H2Hdr) (expect : CStr → CStr) (hdrs : List (CStr × CStr)) :
    Prop where
  names : ∀ h ∈ hdrs, NameOk h.1
  values : ∀ h ∈ hdrs, ValueOk h.2
  hopByHop : (hdrs.filter fun h => h.1 ∈ h2Forbidden) = extConnectHdrs list
  oneHost : (hdrsNamed (bytes "host") hdrs).length ≤ 1
  host : ∀ a ∈ pseudoValue list h2PhdrAuth, ∀ h ∈ hdrs, h.1 = bytes "host" → h.2 = expect a

/-- A header section that can be forwarded. -/
structure RequestSafe (list : List H2Hdr) (expect : CStr → CStr) (htx : Htx) : Prop where
  stline : htx.stlines.length = 1
  hdrs : HdrsSafe list expect htx.headers

/-- At most one content-length header, with the length of the body. -/
structure ClenSafe (hdrs : List (CStr × CStr)) (bodyLen : ℕ) : Prop where
  one : (hdrsNamed (bytes "content-length") hdrs).length ≤ 1
  decimal : ∀ h ∈ hdrsNamed (bytes "content-length") hdrs, IsDecimal h.2 bodyLen

/-- The name that the normalization puts in place of the authority. -/
def normalizedHost (trash : ℕ) (list : List H2Hdr) : Option CStr := do
  let schm ← pseudoValue list h2PhdrSchm
  let auth ← pseudoValue list h2PhdrAuth
  let path ← pseudoValue list h2PhdrPath
  (httpDefaultPort (h2AbsoluteUri trash schm auth path)).map (·.2.1)

section Final

variable {trash : ℕ} {done : List H2Hdr} {st : H2ReqState} {sl : HtxSl}
  {hdrs : List (CStr × CStr)}

/-- The state behind the loop, with its start line. -/
structure H2Done (trash : ℕ) (done : List H2Hdr) (st : H2ReqState) (sl : HtxSl)
    (hdrs : List (CStr × CStr)) : Prop where
  regular : H2Regular trash st sl hdrs
  clen : H2Clen done hdrs st.msgf.bodyCl st.bodyLen
  pseudo : ∀ p, 0 < p → p ≠ h2PhdrHost →
    pseudoValue done p = if p ∈ st.fields then some (st.phdrVal p) else none
  phdrVals : ∀ p, ValueOk (st.phdrVal p)
  cookies : st.cookies = cookieValues done
  cookieVals : ∀ v ∈ st.cookies, ValueOk v

theorem joinCookies_valueOk (h : ∀ v ∈ vs, ValueOk v) : ValueOk (joinCookies vs) := by
  cases vs with
  | nil =>
    intro c hc
    cases hc
  | cons v vs =>
    refine (h v List.mem_cons_self).append ?_
    intro c hc
    obtain ⟨w, hw, hc⟩ := List.mem_flatMap.mp hc
    have hsep : ValueOk (bytes "; ") := by decide
    exact hsep.append (h w (List.mem_cons_of_mem _ hw)) c hc

theorem mem_finalHdrs (hm : h ∈ finalHdrs st hdrs) :
    h ∈ hdrs ∨ h ∈ upgradeHdrs st.msgf.extConnect (st.phdrVal h2PhdrProt) ∨
      h ∈ missingHost st.fields (st.phdrVal h2PhdrAuth) ∨ h ∈ cookieHdrs st.cookies := by
  simpa [finalHdrs, or_assoc] using hm

theorem mem_upgradeHdrs {ext : Bool} {prot : CStr} (hm : h ∈ upgradeHdrs ext prot) :
    h = (bytes "upgrade", prot) ∨ h = (bytes "connection", bytes "upgrade") := by
  unfold upgradeHdrs at hm
  split_ifs at hm
  · simpa using hm
  · cases hm

theorem mem_missingHost {fields : List ℕ} {auth : CStr} (hm : h ∈ missingHost fields auth) :
    h = (bytes "host", auth) ∧ h2PhdrAuth ∈ fields ∧ h2PhdrHost ∉ fields := by
  unfold missingHost at hm
  split_ifs at hm with hc
  · exact ⟨List.mem_singleton.mp hm, hc⟩
  · cases hm

theorem mem_cookieHdrs (hm : h ∈ cookieHdrs vs) : h = (bytes "cookie", joinCookies vs) := by
  cases vs with
  | nil => cases hm
  | cons v vs => exact List.mem_singleton.mp hm

theorem H2Done.names (hd : H2Done trash done st sl hdrs) :
    ∀ h ∈ finalHdrs st hdrs, NameOk h.1 := by
  intro h hm
  rcases mem_finalHdrs hm with hm | hm | hm | hm
  · exact hd.regular.names h hm
  · rcases mem_upgradeHdrs hm with rfl | rfl
    · show NameOk (bytes "upgrade")
      decide
    · decide
  · rw [(mem_missingHost hm).1]
    show NameOk (bytes "host")
    decide
  · rw [mem_cookieHdrs hm]
    show NameOk (bytes "cookie")
    decide

theorem H2Done.values (hd : H2Done trash done st sl hdrs) :
    ∀ h ∈ finalHdrs st hdrs, ValueOk h.2 := by
  intro h hm
  rcases mem_finalHdrs hm with hm | hm | hm | hm
  · exact hd.regular.values h hm
  · rcases mem_upgradeHdrs hm with rfl | rfl
    · exact hd.phdrVals _
    · decide
  · rw [(mem_missingHost hm).1]
    exact hd.phdrVals _
  · rw [mem_cookieHdrs hm]
    exact joinCookies_valueOk hd.cookieVals

/-- Headers of the list are not forbidden, those of an extended CONNECT are. -/
theorem H2Done.hopByHop (hd : H2Done trash done st sl hdrs) :
    ((finalHdrs st hdrs).filter fun h => h.1 ∈ h2Forbidden) = extConnectHdrs done := by
  have h1 : (hdrs.filter fun h => h.1 ∈ h2Forbidden) = [] := by
    rw [List.filter_eq_nil_iff]
    intro h hm
    simpa using hd.regular.allowed h hm
  have h2 : ((missingHost st.fields (st.phdrVal h2PhdrAuth)).filter fun h => h.1 ∈ h2Forbidden)
      = [] := by
    rw [List.filter_eq_nil_iff]
    intro h hm
    rw [(mem_missingHost hm).1]
    show ¬decide (bytes "host" ∈ h2Forbidden) = true
    decide
  have h3 : ((cookieHdrs st.cookies).filter fun h => h.1 ∈ h2Forbidden) = [] := by
    rw [List.filter_eq_nil_iff]
    intro h hm
    rw [mem_cookieHdrs hm]
    show ¬decide (bytes "cookie" ∈ h2Forbidden) = true
    decide
  have h4 : ((upgradeHdrs st.msgf.extConnect (st.phdrVal h2PhdrProt)).filter
      fun h => h.1 ∈ h2Forbidden) = upgradeHdrs st.msgf.extConnect (st.phdrVal h2PhdrProt) := by
    rw [List.filter_eq_self]
    intro h hm
    rcases mem_upgradeHdrs hm with rfl | rfl
    · show decide (bytes "upgrade" ∈ h2Forbidden) = true
      decide
    · decide
  have hext : extConnectHdrs done = upgradeHdrs st.msgf.extConnect (st.phdrVal h2PhdrProt) := by
    have he := hd.regular.ext
    rw [extConnectHdrs, hd.pseudo _ (by decide) (by decide), hd.pseudo _ (by decide) (by decide)]
    unfold H2ExtConnect at he
    cases hm : st.msgf.extConnect <;> rw [hm] at he
    · -- no extended CONNECT
      by_cases hf : h2PhdrMeth ∈ st.fields <;> by_cases hp : h2PhdrProt ∈ st.fields <;>
        simp_all [upgradeHdrs]
    · obtain ⟨⟨hf, hc⟩, hp⟩ := he.mp rfl
      simp [hf, hp, hc, upgradeHdrs]
  rw [finalHdrs, List.filter_append, List.filter_append, List.filter_append, h1, h2, h3, h4, hext]
  simp

theorem hdrsNamed_finalHdrs (hu : bytes "upgrade" ≠ n) (hc : bytes "connection" ≠ n)
    (hk : bytes "cookie" ≠ n) :
    hdrsNamed n (finalHdrs st hdrs) =
      hdrsNamed n hdrs ++ hdrsNamed n (missingHost st.fields (st.phdrVal h2PhdrAuth)) := by
  have h1 : hdrsNamed n (upgradeHdrs st.msgf.extConnect (st.phdrVal h2PhdrProt)) = [] := by
    rw [hdrsNamed, List.filter_eq_nil_iff]
    intro h hm
    rcases mem_upgradeHdrs hm with rfl | rfl
    · simpa using hu
    · simpa using hc
  have h2 : hdrsNamed n (cookieHdrs st.cookies) = [] := by
    rw [hdrsNamed, List.filter_eq_nil_iff]
    intro h hm
    rw [mem_cookieHdrs hm]
    simpa using hk
  rw [finalHdrs, hdrsNamed_append, hdrsNamed_append, hdrsNamed_append, h1, h2]
  simp

theorem H2Done.oneHost (hd : H2Done trash done st sl hdrs) :
    (hdrsNamed (bytes "host") (finalHdrs st hdrs)).length ≤ 1 := by
  rw [hdrsNamed_finalHdrs (by decide) (by decide) (by decide), missingHost]
  split_ifs with hm
  · rw [hd.regular.noHost hm.2, hdrsNamed_singleton_self]
    simp
  · simpa [hdrsNamed] using hd.regular.oneHost

theorem H2Done.host (hd : H2Done trash done st sl hdrs) :
    ∀ a ∈ pseudoValue done h2PhdrAuth, ∀ h ∈ finalHdrs st hdrs, h.1 = bytes "host" → h.2 = a := by
  intro a ha h hm hh
  rw [hd.pseudo _ (by decide) (by decide), Option.mem_def] at ha
  split_ifs at ha with hauth
  cases ha
  rcases mem_finalHdrs hm with hm | hm | hm | hm
  · exact hd.regular.authHost hauth h hm hh
  · rcases mem_upgradeHdrs hm with rfl | rfl
    · exact absurd hh (show bytes "upgrade" ≠ bytes "host" by decide)
    · exact absurd hh (by decide)
  · rw [(mem_missingHost hm).1]
  · rw [mem_cookieHdrs hm] at hh
    exact absurd hh (show bytes "cookie" ≠ bytes "host" by decide)

theorem H2Done.hdrsSafe (hd : H2Done trash done st sl hdrs) :
    HdrsSafe done id (finalHdrs st hdrs) :=
  ⟨hd.names, hd.values, hd.hopByHop, hd.oneHost, hd.host⟩

theorem H2Done.clenSafe (hd : H2Done trash done st sl hdrs)
    (hb : ∀ v ∈ firstClen done, ¬IsBlank v) : ClenSafe (finalHdrs st hdrs) st.bodyLen := by
  have hn : hdrsNamed (bytes "content-length") (finalHdrs st hdrs) =
      hdrsNamed (bytes "content-length") hdrs := by
    rw [hdrsNamed_finalHdrs (by decide) (by decide) (by decide), missingHost]
    split_ifs
    · rw [hdrsNamed_singleton_of_ne _ (by decide), List.append_nil]
    · simp [hdrsNamed]
  cases hf : firstClen done with
  | none =>
    have hnil := (hd.clen.unseen hf).2
    rw [hnil] at hn
    exact ⟨by rw [hn]; simp, by rw [hn]; simp⟩
  | some v =>
    obtain ⟨-, w, hw, hdec⟩ := hd.clen.seen v hf (hb v hf)
    rw [hw] at hn
    refine ⟨by rw [hn]; simp, ?_⟩
    intro h hm
    rw [hn] at hm
    rw [List.mem_singleton.mp hm]
    exact hdec

end Final

/-! ### The normalized host -/

theorem NameOk.isteqi_host (hn : NameOk n) (hne : n ≠ bytes "host") :
    isteqi n (bytes "host") = false := by
  have hlc : n.map istLc = n := by
    conv_rhs => rw [← List.map_id n]
    apply List.map_congr_left
    intro c hc
    simp [istLc, (hn.2 c hc).2]
  have hhost : (bytes "host").map istLc = bytes "host" := by decide
  rw [isteqi, hlc, hhost]
  simpa using hne

theorem noHost_of_named {hdrs : List (CStr × CStr)} (hn : ∀ h ∈ hdrs, NameOk h.1)
    (h : hdrsNamed (bytes "host") hdrs = []) : NoHost hdrs := by
  intro x hx
  rw [hdrsNamed, List.filter_eq_nil_iff] at h
  exact (hn x hx).isteqi_host (by simpa using h x hx)

theorem HdrsSafe.split {expect : CStr → CStr} {hdrs : List (CStr × CStr)}
    (hs : HdrsSafe list expect hdrs) :
    NoHost hdrs ∨ ∃ pre a post, hdrs = pre ++ (bytes "host", a) :: post ∧ NoHost pre ∧
      NoHost post := by
  by_cases hex : ∃ h ∈ hdrs, h.1 = bytes "host"
  · right
    obtain ⟨⟨n, a⟩, hm, rfl⟩ := hex
    obtain ⟨pre, post, rfl⟩ := List.append_of_mem hm
    have hone := hs.oneHost
    rw [hdrsNamed_append, ← List.singleton_append, hdrsNamed_append, hdrsNamed_singleton_self]
      at hone
    simp only [List.length_append, List.length_singleton] at hone
    have hpre : hdrsNamed (bytes "host") pre = [] := List.length_eq_zero_iff.mp (by omega)
    have hpost : hdrsNamed (bytes "host") post = [] := List.length_eq_zero_iff.mp (by omega)
    exact ⟨pre, a, post, rfl,
      noHost_of_named (fun h hm => hs.names h (List.mem_append_left _ hm)) hpre,
      noHost_of_named (fun h hm => hs.names h (by simp [hm])) hpost⟩
  · left
    intro h hm
    exact (hs.names h hm).isteqi_host fun hh => hex ⟨h, hm, hh⟩

/-- Another value for the only host header. -/
theorem HdrsSafe.replaceHost {expect : CStr → CStr} {pre post : List (CStr × CStr)} {a w : CStr}
    (hs : HdrsSafe list expect (pre ++ (bytes "host", a) :: post)) (hpre : NoHost pre)
    (hpost : NoHost post) (hw : ValueOk w) :
    HdrsSafe list (fun _ => w) (pre ++ (bytes "host", w) :: post) := by
  have hno : ∀ {l : List (CStr × CStr)}, NoHost l → ∀ h ∈ l, h.1 ≠ bytes "host" := by
    intro l hl h hm hh
    have := hl h hm
    rw [hh] at this
    revert this
    decide
  refine ⟨?_, ?_, ?_, ?_, ?_⟩
  · intro h hm
    rcases List.mem_append.mp hm with hm | hm
    · exact hs.names h (List.mem_append_left _ hm)
    · rcases List.mem_cons.mp hm with rfl | hm
      · exact hs.names (bytes "host", a) (by simp)
      · exact hs.names h (by simp [hm])
  · intro h hm
    rcases List.mem_append.mp hm with hm | hm
    · exact hs.values h (List.mem_append_left _ hm)
    · rcases List.mem_cons.mp hm with rfl | hm
      · exact hw
      · exact hs.values h (by simp [hm])
  · rw [← hs.hopByHop]
    have hhost : decide (bytes "host" ∈ h2Forbidden) = false := by decide
    simp [List.filter_append, hhost]
  · have hnil : ∀ {l : List (CStr × CStr)}, NoHost l → hdrsNamed (bytes "host") l = [] := by
      intro l hl
      rw [hdrsNamed, List.filter_eq_nil_iff]
      intro h hm
      simpa using hno hl h hm
    rw [hdrsNamed_append, hnil hpre, ← List.singleton_append, hdrsNamed_append, hnil hpost,
      hdrsNamed_singleton_self]
    simp
  · intro b _ h hm hh
    rcases List.mem_append.mp hm with hm | hm
    · exact absurd hh (hno hpre h hm)
    · rcases List.mem_cons.mp hm with rfl | hm
      · rfl
      · exact absurd hh (hno hpost h hm)

/-- The headers behind the normalization. -/
theorem H2Done.normalize {trash : ℕ} {done : List H2Hdr} {st : H2ReqState} {sl sl' : HtxSl}
    {hdrs : List (CStr × CStr)} {stale : ℕ → CStr} {fuel : ℕ} (hd : H2Done trash done st sl hdrs)
    (hx : htx.Holds sl' (finalHdrs st hdrs) [eohBlk]) (hp2 : sl'.p2 = sl.p2)
    (hsch : sl'.flags.hasSchm = sl.flags.hasSchm)
    (hn : ∀ a ∈ pseudoValue done h2PhdrAuth, ∀ h ∈ normalizedHost trash done,
      OneElement a ∧ h <+: a)
    (h : (if h2PhdrSchm ∈ st.fields then httpSchemeBasedNormalize stale fuel htx
      else some htx) = some htx') :
    ∃ sl'' hdrs', htx'.Holds sl'' hdrs' [eohBlk] ∧
      HdrsSafe done (fun a => (normalizedHost trash done).getD a) hdrs' ∧
      hdrsNamed (bytes "content-length") hdrs' =
        hdrsNamed (bytes "content-length") (finalHdrs st hdrs) := by
  have hsafe := hd.hdrsSafe
  by_cases hs : h2PhdrSchm ∈ st.fields
  swap
  · -- CONNECT: no scheme, no normalization
    rw [if_neg hs] at h
    cases h
    have hnone : normalizedHost trash done = none := by
      rw [normalizedHost, hd.pseudo _ (by decide) (by decide), if_neg hs]
      rfl
    refine ⟨sl', _, hx, ?_, rfl⟩
    rw [hnone]
    exact hsafe
  rw [if_pos hs] at h
  by_cases ha : h2PhdrAuth ∈ st.fields
  swap
  · -- origin form
    have hnone : normalizedHost trash done = none := by
      rw [normalizedHost, hd.pseudo _ (by decide) (by decide), if_pos hs,
        hd.pseudo _ (by decide) (by decide), if_neg ha]
      rfl
    have hport : httpDefaultPort sl'.p2 = none := by
      rw [hp2]
      exact hd.regular.line.origin hs ha
    have hsame := httpSchemeBasedNormalize_none hx hport h
    refine ⟨sl', _, hsame ▸ hx, ?_, rfl⟩
    rw [hnone]
    exact hsafe
  have hauth : pseudoValue done h2PhdrAuth = some (st.phdrVal h2PhdrAuth) := by
    rw [hd.pseudo _ (by decide) (by decide), if_pos ha]
  have hnorm : normalizedHost trash done = (httpDefaultPort sl'.p2).map (·.2.1) := by
    rw [normalizedHost, hauth, hd.pseudo _ (by decide) (by decide), if_pos hs,
      hd.pseudo _ (by decide) (by decide), if_pos (hd.regular.line.path hs), hp2,
      hd.regular.line.absolute hs ha]
    rfl
  rcases hsafe.split with hno | ⟨pre, a, post, heq, hpre, hpost⟩
  · obtain ⟨sl'', hx'⟩ := httpSchemeBasedNormalize_noHost hx hno h
    refine ⟨sl'', _, hx', ⟨hsafe.names, hsafe.values, hsafe.hopByHop, hsafe.oneHost, ?_⟩, rfl⟩
    intro b _ x hm hh
    have := hno x hm
    rw [hh] at this
    exact absurd this (by decide)
  · rw [heq] at hx hsafe ⊢
    -- the host is the authority
    obtain rfl : a = st.phdrVal h2PhdrAuth := hsafe.host _ hauth (bytes "host", a) (by simp) rfl
    have hone : ∀ n ∈ httpDefaultPort sl'.p2,
        OneElement (st.phdrVal h2PhdrAuth) ∧ n.2.1 <+: st.phdrVal h2PhdrAuth := by
      intro n hmem
      refine hn _ hauth n.2.1 ?_
      rw [hnorm, Option.mem_def.mp hmem]
      rfl
    obtain ⟨sl'', hx'⟩ := httpSchemeBasedNormalize_holds hx hpre hpost
      (fun n hmem => ⟨(hone n hmem).1, (hone n hmem).2.length_le⟩)
      (hsch.trans (hd.regular.line.schm hs)) h
    refine ⟨sl'', _, hx', ?_, ?_⟩
    · cases hport : httpDefaultPort sl'.p2 with
      | none =>
        rw [hnorm, hport]
        exact hsafe
      | some n =>
        rw [hnorm, hport]
        refine hsafe.replaceHost hpre hpost ?_
        intro c hc
        exact hd.phdrVals _ c ((hone n hport).2.subset hc)
    · rw [hdrsNamed_append, hdrsNamed_append, ← List.singleton_append, hdrsNamed_append,
        ← List.singleton_append (l := post), hdrsNamed_append,
        hdrsNamed_singleton_of_ne _ (by decide), hdrsNamed_singleton_of_ne _ (by decide)]

/-- **An accepted request is safe to forward.**  The host is the authority, less a
default port of the scheme. -/
theorem h2_request_safe {trash fuel size : ℕ} {stale : ℕ → CStr} {body : Bool} {bodyLen : ℕ}
    {len : ℕ} (hz : size < 2 ^ 28)
    (hck : (joinCookies (cookieValues (h2List list))).length < 2 ^ 20)
    (hn : ∀ a ∈ pseudoValue (h2List list) h2PhdrAuth, ∀ h ∈ normalizedHost trash (h2List list),
      OneElement a ∧ h <+: a)
    (hr : h2MakeHtxRequest trash stale fuel size body bodyLen list = some (htx, msgf, len)) :
    RequestSafe (h2List list) (fun a => (normalizedHost trash (h2List list)).getD a) htx ∧
      ((∀ v ∈ firstClen (h2List list), ¬IsBlank v) → ClenSafe htx.headers len) := by
  rw [h2MakeHtxRequest, Option.bind_eq_some_iff] at hr
  obtain ⟨st, hloop, hr⟩ := hr
  have hend : ∀ e ∈ h2List list, e.isEnd = false := by
    intro e he
    have := List.all_eq_true.mp (List.all_takeWhile (l := list)) e he
    simpa using this
  have hi := h2RequestLoop_inv hz hend hloop
  by_cases hstat : h2PhdrStat ∈ st.fields
  · rw [if_pos hstat] at hr
    cases hr
  rw [if_neg hstat, Option.bind_eq_some_iff] at hr
  obtain ⟨st1, hstart, hr⟩ := hr
  -- the state with a start line, whether or not there was a regular header
  have hdone : ∃ sl hdrs, H2Done trash (h2List list) st1 sl hdrs := by
    rw [h2LateReqline] at hstart
    split_ifs at hstart with hnone
    · cases hstart
      obtain ⟨-, sl, hdrs, hreg, hcl⟩ := hi.regular hnone
      exact ⟨sl, hdrs, hreg, hcl, hi.pseudo, hi.phdrVals, hi.cookies, hi.cookieVals⟩
    · rw [Option.map_eq_some_iff] at hstart
      obtain ⟨⟨htx1, msgf1⟩, hline, rfl⟩ := hstart
      obtain ⟨⟨sl, hreg⟩, hcl⟩ := (hi.fresh hnone).start hline
      exact ⟨sl, [], hreg, hcl, hi.pseudo, hi.phdrVals, hi.cookies, hi.cookieVals⟩
  obtain ⟨sl, hdrs, hd⟩ := hdone
  rw [Option.bind_eq_some_iff] at hr
  obtain ⟨⟨htx1, msgf1⟩, hfin, hr⟩ := hr
  rw [Option.map_eq_some_iff] at hr
  obtain ⟨htx2, hnorm, hres⟩ := hr
  cases hres
  obtain ⟨sl1, hx, hp2, hsch⟩ := hd.regular.finish (by
    rw [hd.cookies]
    omega) hfin
  obtain ⟨sl2, hdrs2, hx2, hsafe, hclen⟩ := hd.normalize hx hp2 hsch hn hnorm
  refine ⟨⟨?_, ?_⟩, fun hb => ?_⟩
  · rw [hx2.stlines_eq]
    rfl
  · rw [hx2.headers_eq]
    exact hsafe
  · obtain ⟨hone, hdec⟩ := hd.clenSafe hb
    rw [hx2.headers_eq]
    refine ⟨?_, ?_⟩
    · rw [hclen]
      exact hone
    · rw [hclen]
      exact hdec

/-- A request for the default port of its scheme. -/
def defaultPortRequest : List H2Hdr :=
  [⟨.indexed h2PhdrMeth, bytes "GET"⟩, ⟨.literal (bytes ":scheme"), bytes "http"⟩,
    ⟨.literal (bytes ":authority"), bytes "a:80"⟩, ⟨.literal (bytes ":path"), bytes "/"⟩,
    ⟨.literal (bytes "content-length"), bytes "5, 5"⟩,
    ⟨.literal (bytes "cookie"), bytes "b=1"⟩, ⟨.literal (bytes "cookie"), bytes "c=2"⟩]

/-- The request in a buffer of the default size. -/
def defaultPortResult : Option (Htx × H2Msgf × ℕ) :=
  h2MakeHtxRequest 16384 (fun _ => []) 3 16328 true 0 defaultPortRequest

theorem h2_request_safe_port : ∃ htx msgf len, defaultPortResult = some (htx, msgf, len) ∧
    RequestSafe (h2List defaultPortRequest)
      (fun a => (normalizedHost 16384 (h2List defaultPortRequest)).getD a) htx ∧
    ClenSafe htx.headers len := by
  have hsome : defaultPortResult.isSome = true := by decide +kernel
  obtain ⟨⟨htx, msgf, len⟩, hr⟩ := Option.isSome_iff_exists.mp hsome
  obtain ⟨hsafe, hclen⟩ := h2_request_safe (by decide) (by decide +kernel) (by decide +kernel) hr
  exact ⟨htx, msgf, len, hr, hsafe, hclen (by decide +kernel)⟩

/-- The host is not always the authority: the normalization takes the port off. -/
theorem not_h2_request_safe :
    ¬∀ (trash fuel size : ℕ) (stale : ℕ → CStr) (body : Bool) (bodyLen : ℕ) (list : List H2Hdr)
      (htx : Htx) (msgf : H2Msgf) (len : ℕ), size < 2 ^ 28 →
      h2MakeHtxRequest trash stale fuel size body bodyLen list = some (htx, msgf, len) →
      RequestSafe (h2List list) id htx ∧ ClenSafe htx.headers len := by
  intro hall
  have hsome : defaultPortResult.isSome = true := by decide +kernel
  obtain ⟨⟨htx, msgf, len⟩, hr⟩ := Option.isSome_iff_exists.mp hsome
  have hhdrs : defaultPortResult.map (fun r => r.1.headers.head?) =
      some (some (bytes "host", bytes "a")) := by decide +kernel
  obtain ⟨hsafe, -⟩ := hall _ _ _ _ _ _ _ htx msgf len (by decide) hr
  rw [hr] at hhdrs
  have hmem : (bytes "host", bytes "a") ∈ htx.headers := by
    apply List.mem_of_mem_head?
    simpa using hhdrs
  have hauth : pseudoValue (h2List defaultPortRequest) h2PhdrAuth = some (bytes "a:80") := by
    decide +kernel
  exact absurd (hsafe.hdrs.host _ hauth _ hmem rfl) (by decide)

end SmartHAProxy
