/-
What an accepted HTTP/2 request looks like in HTX.

`H2ReqInv` is what holds after each turn of the loop over the headers, in terms
of the headers seen so far; `H2Regular` is its part about the message.  The
normalization at the end only touches the URI and the value of the host.

Main results: `H2ReqInv.requestHdr` for one turn, `h2RequestLoop_inv` for the loop.
-/
import SmartHAProxy.H2.Request
import SmartHAProxy.Lib.Run

namespace SmartHAProxy

variable {v w : CStr} {msgf : H2Msgf} {htx : Htx} {bodyCl : Bool} {bodyLen : ℕ} {done' : List H2Hdr}

/-! ### Names and values -/

def ValueOk (v : CStr) : Prop := ∀ c ∈ v, c ≠ 0 ∧ c ≠ 10 ∧ c ≠ 13

/-- A token that is not empty and has no upper-case letter. -/
def NameOk (n : CStr) : Prop := n ≠ [] ∧ ∀ c ∈ n, httpIsToken c = true ∧ isUpper c = false

instance ValueOk.decidable (v : CStr) : Decidable (ValueOk v) :=
  List.decidableBAll _ v

instance NameOk.decidable (n : CStr) : Decidable (NameOk n) :=
  haveI : Decidable (∀ c ∈ n, httpIsToken c = true ∧ isUpper c = false) := List.decidableBAll _ n
  inferInstanceAs (Decidable (_ ∧ _))

def hdrsNamed (n : CStr) (hdrs : List (CStr × CStr)) : List (CStr × CStr) :=
  hdrs.filter fun h => h.1 == n

theorem hdrsNamed_append (n : CStr) (l m : List (CStr × CStr)) :
    hdrsNamed n (l ++ m) = hdrsNamed n l ++ hdrsNamed n m :=
  List.filter_append ..

theorem hdrsNamed_singleton_self (n v : CStr) : hdrsNamed n [(n, v)] = [(n, v)] := by
  simp [hdrsNamed]

theorem hdrsNamed_singleton_of_ne {n m : CStr} (v : CStr) (h : m ≠ n) :
    hdrsNamed n [(m, v)] = [] := by
  simp [hdrsNamed, h]

theorem valueOk_of_check (h : (istFindCtl v).any hasForbiddenChar = false) : ValueOk v := by
  intro c hc
  rw [← List.takeWhile_append_dropWhile (p := fun c => decide ((32 : UInt8) ≤ c)) (l := v)] at hc
  rcases List.mem_append.mp hc with hc | hc
  · -- no control character so far
    have h32 : 32 ≤ c := by
      have := List.all_eq_true.mp (List.all_takeWhile (l := v)) c hc
      simpa using this
    refine ⟨?_, ?_, ?_⟩ <;> rintro rfl <;> revert h32 <;> decide
  · simp only [istFindCtl] at h
    split at h
    next hd =>
      rw [hd] at hc
      cases hc
    next hd =>
      rw [← hd] at h
      simp only [Option.any_some, hasForbiddenChar, List.any_eq_false] at h
      have := h c hc
      simpa [not_or, and_assoc] using this

theorem ValueOk.append (hv : ValueOk v) (hw : ValueOk w) : ValueOk (v ++ w) := by
  intro c hc
  rcases List.mem_append.mp hc with hc | hc
  · exact hv c hc
  · exact hw c hc

theorem h2NameChar_upper {c : UInt8} (h : h2NameChar c = true) (hu : isUpper c = true) :
    c = 90 := by
  rw [isUpper_iff] at hu
  simp only [h2NameChar, Bool.and_eq_true, Bool.not_eq_true', decide_eq_false_iff_not,
    UInt8.lt_iff_toNat_lt, UInt8.toNat_sub, UInt8.toNat_ofNat] at h
  apply UInt8.toNat_inj.mp
  show c.toNat = 90
  have := h.1
  omega

theorem nameOk_map_istLc {n : CStr} (hne : n ≠ []) (h : n.all h2NameChar = true) :
    NameOk (n.map istLc) := by
  refine ⟨by simpa using hne, ?_⟩
  intro c hc
  obtain ⟨d, hd, rfl⟩ := List.mem_map.mp hc
  have hchar := List.all_eq_true.mp h d hd
  rw [h2NameChar, Bool.and_eq_true] at hchar
  exact ⟨istLc_token hchar.2, istLc_not_upper d⟩

theorem map_istLc_eq_iff {n t : CStr} (h : n.all h2NameChar = true)
    (ht : t.all (fun c => !isUpper c && c != 122) = true) : n.map istLc = t ↔ n = t := by
  have hlow : ∀ {l : CStr}, (∀ c ∈ l, isUpper c = false) → l.map istLc = l := by
    intro l hl
    conv_rhs => rw [← List.map_id l]
    apply List.map_congr_left
    intro c hc
    simp [istLc, hl c hc]
  constructor
  · rintro rfl
    apply (hlow ?_).symm
    intro c hc
    by_contra hu
    rw [Bool.not_eq_false] at hu
    have hz := h2NameChar_upper (List.all_eq_true.mp h c hc) hu
    subst hz
    have := List.all_eq_true.mp ht (istLc 90) (List.mem_map_of_mem hc)
    revert this
    decide
  · rintro rfl
    apply hlow
    intro c hc
    have := List.all_eq_true.mp ht c hc
    simp only [Bool.and_eq_true, Bool.not_eq_true'] at this
    exact this.1

/-! ### Content-Length -/

/-- The number that a string of digits stands for. -/
def decimal (v : CStr) : ℕ := v.foldl (fun n c => n * 10 + (c.toNat - 48)) 0

/-- A decimal number that is not empty, and its value. -/
def IsDecimal (v : CStr) (n : ℕ) : Prop := v ≠ [] ∧ v.all isDigit = true ∧ decimal v = n

instance IsDecimal.decidable (v : CStr) (n : ℕ) : Decidable (IsDecimal v n) :=
  inferInstanceAs (Decidable (_ ∧ _ ∧ _))

def IsBlank (v : CStr) : Prop := v.all httpIsLws = true

instance IsBlank.decidable (v : CStr) : Decidable (IsBlank v) :=
  inferInstanceAs (Decidable (_ = true))

theorem clDigits_eq {cl n : ℕ} (h : clDigits cl w = some n) :
    w.foldl (fun n c => n * 10 + (c.toNat - 48)) cl = n := by
  induction w generalizing cl with
  | nil => simpa [clDigits] using h
  | cons c w ih =>
    simp only [clDigits] at h
    split_ifs at h
    exact ih h

theorem isDecimal_takeWhile {c : UInt8} {cs : CStr} {cl : ℕ} (hc : isDigit c = true)
    (h : clDigits 0 ((c :: cs).takeWhile isDigit) = some cl) :
    IsDecimal ((c :: cs).takeWhile isDigit) cl :=
  ⟨by simp [hc], List.all_takeWhile, clDigits_eq h⟩

/-- The parser keeps a length that it had; it returns the value as it is if it is
blank, and else one of its decimal numbers. -/
theorem contLenLoop_spec {b : Bool} {len : ℕ} {s : CStr} {r : Bool × ℕ × CStr}
    (h : contLenLoop b len v s = some r) :
    (b = true → r.1 = true ∧ r.2.1 = len) ∧
      ((IsBlank s ∧ r = (b, len, v)) ∨ (r.1 = true ∧ IsDecimal r.2.2 r.2.1)) := by
  fun_induction contLenLoop b len v s with
  | case1 b len v =>
    cases h
    exact ⟨fun hb => ⟨hb, rfl⟩, .inl ⟨rfl, rfl⟩⟩
  | case2 b len v c cs hlws ih =>
    obtain ⟨h1, h2⟩ := ih h
    refine ⟨h1, h2.imp_left fun hb => ⟨?_, hb.2⟩⟩
    rw [IsBlank, List.all_cons, hlws, hb.1]
    rfl
  | case3 => cases h
  | case4 => cases h
  | case5 => cases h
  | case6 b len v c cs hlws hdig word cl hnext hcl hdup =>
    cases h
    have hdec := isDecimal_takeWhile (by simpa using hdig) hcl
    refine ⟨fun hb => ⟨rfl, ?_⟩, .inr ⟨rfl, hdec⟩⟩
    by_contra hne
    exact hdup ⟨hb, hne⟩
  | case7 => cases h
  | case8 => cases h
  | case9 b len v c cs hlws hdig word cl d rest hnext hcl hcomma hdup ih =>
    -- another value follows, which has to be the same
    have hdec := isDecimal_takeWhile (by simpa using hdig) hcl
    obtain ⟨h1, h2⟩ := ih h
    refine ⟨fun hb => ⟨(h1 rfl).1, ?_⟩, .inr ⟨(h1 rfl).1, ?_⟩⟩
    · rw [(h1 rfl).2]
      by_contra hne
      exact hdup ⟨hb, hne⟩
    · rcases h2 with ⟨-, rfl⟩ | ⟨-, h2⟩
      · exact hdec
      · exact h2

/-! ### The start line -/

/-- What the rest of the function relies on in the start line. -/
structure H2Line (trash : ℕ) (fields : List ℕ) (phdr : ℕ → CStr) (sl : HtxSl) : Prop where
  schm : h2PhdrSchm ∈ fields → sl.flags.hasSchm = true
  path : h2PhdrSchm ∈ fields → h2PhdrPath ∈ fields
  absolute : h2PhdrSchm ∈ fields → h2PhdrAuth ∈ fields →
    sl.p2 = h2AbsoluteUri trash (phdr h2PhdrSchm) (phdr h2PhdrAuth) (phdr h2PhdrPath)
  origin : h2PhdrSchm ∈ fields → h2PhdrAuth ∉ fields → httpDefaultPort sl.p2 = none

def H2ExtConnect (fields : List ℕ) (phdr : ℕ → CStr) : Prop :=
  (h2PhdrMeth ∈ fields ∧ phdr h2PhdrMeth = bytes "CONNECT") ∧ h2PhdrProt ∈ fields

theorem httpDefaultPort_path {path : CStr} (h : h2PathOk path = true) :
    httpDefaultPort path = none := by
  have hs : httpParseScheme path = none := by
    rw [h2PathOk, Bool.or_eq_true] at h
    rcases h with h | h
    · cases path with
      | nil => rfl
      | cons c cs =>
        obtain rfl : c = 47 := by simpa using h
        rfl
    · obtain rfl : path = bytes "*" := by simpa using h
      rfl
  simp [httpDefaultPort, hs]

theorem h2SchemeFlags_hasSchm (schm : CStr) : (h2SchemeFlags schm).1.hasSchm = true := by
  unfold h2SchemeFlags
  split_ifs <;> rfl

theorem h2ReqlineMethod_spec {fields : List ℕ} {phdr : ℕ → CStr} {msgf' : H2Msgf}
    {flags : HtxSlFlags} {err : Bool} {meth : CStr}
    (h : h2ReqlineMethod fields phdr msgf = some (flags, err, meth, msgf')) :
    (flags.hasSchm = true ↔ h2PhdrSchm ∈ fields) ∧
      (h2PhdrSchm ∈ fields → h2PhdrPath ∈ fields) ∧
      msgf'.bodyCl = msgf.bodyCl ∧
      (msgf.extConnect = false → (msgf'.extConnect = true ↔ H2ExtConnect fields phdr)) := by
  have hfl := h2SchemeFlags_hasSchm (phdr h2PhdrSchm)
  simp only [h2ReqlineMethod] at h
  split_ifs at h with hc hp h1 h2 h3 h1 h2 h3 hall
  · -- extended CONNECT
    cases h
    exact ⟨by simpa [hfl] using h1, fun _ => h2, rfl, fun _ => by
      simp [H2ExtConnect, hc, hp]⟩
  · -- CONNECT
    cases h
    exact ⟨by simpa using h1, fun hs => absurd hs h1, rfl, fun he => by
      simp [H2ExtConnect, he, hp]⟩
  · cases h
    exact ⟨by simpa [hfl] using hall.2.1, fun _ => hall.2.2, rfl, fun he => by
      simp [H2ExtConnect, he, hc]⟩

theorem h2ReqlineUri_hasSchm (trash : ℕ) (fields : List ℕ) (phdr : ℕ → CStr)
    (flags : HtxSlFlags) : (h2ReqlineUri trash fields phdr flags).2.hasSchm = flags.hasSchm := by
  unfold h2ReqlineUri
  split_ifs <;> rfl

theorem h2PrepareHtxReqline_spec {trash : ℕ} {fields : List ℕ} {phdr : ℕ → CStr} {htx' : Htx}
    {msgf' : H2Msgf} (hb : htx.blks = []) (hd : htx.data = 0) (hz : htx.size < 2 ^ 28)
    (h : h2PrepareHtxReqline trash fields phdr htx msgf = some (htx', msgf')) :
    ∃ sl, htx'.Holds sl [] [] ∧ H2Line trash fields phdr sl ∧ msgf'.bodyCl = msgf.bodyCl ∧
      (msgf.extConnect = false → (msgf'.extConnect = true ↔ H2ExtConnect fields phdr)) := by
  simp only [h2PrepareHtxReqline] at h
  split at h
  next => cases h
  next flags err meth msgf1 hm =>
    obtain ⟨hschm, hpath, hcl, hext⟩ := h2ReqlineMethod_spec hm
    have hflags := h2ReqlineUri_hasSchm trash fields phdr flags
    split_ifs at h with hpok hm0 hu0
    rw [Option.map_eq_some_iff] at h
    obtain ⟨htx1, hadd, hres⟩ := h
    cases hres
    refine ⟨_, Htx.Holds.addStline ?_ ?_ ?_ hadd, ⟨?_, hpath, ?_, ?_⟩, hcl, hext⟩
    · exact hb
    · exact hd
    · exact hz
    · intro hs
      exact hflags.trans (hschm.mpr hs)
    · intro hs ha
      simp [h2ReqlineUri, hschm.mpr hs, ha]
    · -- the target is the path
      intro hs ha
      have hok : h2PathOk (phdr h2PhdrPath) = true := by
        by_contra hno
        exact hpok ⟨hpath hs, hno⟩
      simpa [h2ReqlineUri, hschm.mpr hs, ha] using httpDefaultPort_path hok

/-! ### The loop -/

/-- The value of a pseudo-header of the list. -/
def pseudoValue (list : List H2Hdr) (p : ℕ) : Option CStr :=
  (list.find? fun e => e.phdr == (p : ℤ)).map (·.v)

/-- The value of the first content-length header of the list. -/
def firstClen (list : List H2Hdr) : Option CStr :=
  (list.find? fun e => e.n == .literal (bytes "content-length")).map (·.v)

/-- The values of the cookie headers of the list. -/
def cookieValues (list : List H2Hdr) : List CStr :=
  (list.filter fun e => e.n == .literal (bytes "cookie")).map (·.v)

/-- The content-length header, if the first one of the list was not blank. -/
structure H2Clen (done : List H2Hdr) (hdrs : List (CStr × CStr)) (bodyCl : Bool) (bodyLen : ℕ) :
    Prop where
  unseen : firstClen done = none →
    bodyCl = false ∧ hdrsNamed (bytes "content-length") hdrs = []
  seen : ∀ v, firstClen done = some v → ¬IsBlank v →
    bodyCl = true ∧ ∃ w, hdrsNamed (bytes "content-length") hdrs =
      [(bytes "content-length", w)] ∧ IsDecimal w bodyLen

/-- What the message holds once there is a start line. -/
structure H2Regular (trash : ℕ) (st : H2ReqState) (sl : HtxSl) (hdrs : List (CStr × CStr)) :
    Prop where
  holds : st.htx.Holds sl hdrs []
  line : H2Line trash st.fields st.phdrVal sl
  ext : st.msgf.extConnect = true ↔ H2ExtConnect st.fields st.phdrVal
  names : ∀ h ∈ hdrs, NameOk h.1
  values : ∀ h ∈ hdrs, ValueOk h.2
  allowed : ∀ h ∈ hdrs, h.1 ∉ h2Forbidden
  oneHost : (hdrsNamed (bytes "host") hdrs).length ≤ 1
  noHost : h2PhdrHost ∉ st.fields → hdrsNamed (bytes "host") hdrs = []
  authHost : h2PhdrAuth ∈ st.fields → ∀ h ∈ hdrs, h.1 = bytes "host" → h.2 = st.phdrVal h2PhdrAuth

structure H2Fresh (done : List H2Hdr) (st : H2ReqState) : Prop where
  blks : st.htx.blks = []
  data : st.htx.data = 0
  size : st.htx.size < 2 ^ 28
  bodyCl : st.msgf.bodyCl = false
  ext : st.msgf.extConnect = false
  clen : firstClen done = none

/-- **The invariant of the loop**, after the headers `done`. -/
structure H2ReqInv (trash : ℕ) (done : List H2Hdr) (st : H2ReqState) : Prop where
  pseudo : ∀ p, 0 < p → p ≠ h2PhdrHost →
    pseudoValue done p = if p ∈ st.fields then some (st.phdrVal p) else none
  phdrVals : ∀ p, ValueOk (st.phdrVal p)
  cookies : st.cookies = cookieValues done
  cookieVals : ∀ v ∈ st.cookies, ValueOk v
  fresh : h2PhdrNone ∉ st.fields → H2Fresh done st
  regular : h2PhdrNone ∈ st.fields → (h2PhdrAuth ∈ st.fields → h2PhdrHost ∈ st.fields) ∧
    ∃ sl hdrs, H2Regular trash st sl hdrs ∧ H2Clen done hdrs st.msgf.bodyCl st.bodyLen

/-! #### What one more header changes in the list -/

section Done

variable (done : List H2Hdr) (e : H2Hdr)

theorem pseudoValue_concat (p : ℕ) :
    pseudoValue (done ++ [e]) p =
      (pseudoValue done p).or (if e.phdr = (p : ℤ) then some e.v else none) := by
  rw [pseudoValue, List.find?_append, Option.map_or, ← pseudoValue]
  by_cases h : e.phdr = (p : ℤ) <;> simp [h]

theorem firstClen_concat :
    firstClen (done ++ [e]) =
      (firstClen done).or
        (if e.n = .literal (bytes "content-length") then some e.v else none) := by
  rw [firstClen, List.find?_append, Option.map_or, ← firstClen]
  by_cases h : e.n = .literal (bytes "content-length") <;> simp [h]

theorem cookieValues_concat :
    cookieValues (done ++ [e]) =
      cookieValues done ++ if e.n = .literal (bytes "cookie") then [e.v] else [] := by
  rw [cookieValues, List.filter_append, List.map_append, ← cookieValues]
  by_cases h : e.n = .literal (bytes "cookie") <;> simp [h]

theorem H2Hdr.n_ne_of_phdr {e : H2Hdr} {n : CStr} (hn : h2StrToPhdr n = 0) (he : e.phdr ≠ 0) :
    e.n ≠ .literal n := by
  intro h
  apply he
  rw [H2Hdr.phdr, h]
  exact hn

end Done

/-! #### Pseudo-headers -/

theorem H2ReqInv.pseudoHdr {trash k : ℕ} {done : List H2Hdr} {st st' : H2ReqState} {e : H2Hdr}
    (hi : H2ReqInv trash done st) (hv : ValueOk e.v) (hk : e.phdr = (k : ℤ)) (hpos : 0 < k)
    (h : h2PseudoHdr st k e.v = some st') : H2ReqInv trash (done ++ [e]) st' := by
  simp only [h2PseudoHdr] at h
  split_ifs at h with hseen
  cases h
  rw [not_or] at hseen
  have hne : e.phdr ≠ 0 := by omega
  have hclen : firstClen (done ++ [e]) = firstClen done := by
    rw [firstClen_concat, if_neg (H2Hdr.n_ne_of_phdr (by decide) hne), Option.or_none]
  have hnone : h2PhdrNone ∉ k :: st.fields := by
    rw [List.mem_cons, not_or]
    exact ⟨Nat.ne_of_lt hpos, hseen.2⟩
  obtain ⟨hblks, hdata, hsize, hcl, hext, hfirst⟩ := hi.fresh hseen.2
  refine ⟨?_, ?_, ?_, hi.cookieVals, ?_, fun hm => absurd hm hnone⟩
  · intro p hp0 hph
    rw [pseudoValue_concat, hi.pseudo p hp0 hph, hk]
    rcases eq_or_ne p k with rfl | hpk
    · rw [if_neg hseen.1, if_pos rfl, if_pos List.mem_cons_self]
      simp
    · have hkp : ¬(k : ℤ) = (p : ℤ) := by omega
      rw [if_neg hkp, Option.or_none]
      simp [hpk]
  · intro p
    dsimp only
    split_ifs
    · exact hv
    · exact hi.phdrVals p
  · rw [cookieValues_concat, if_neg (H2Hdr.n_ne_of_phdr (by decide) hne), List.append_nil]
    exact hi.cookies
  · intro _
    exact ⟨hblks, hdata, hsize, hcl, hext, hclen.trans hfirst⟩

/-! #### Regular headers -/

/-- The same pseudo-headers were found.  The bits of `H2_PHDR_FND_NONE` and
`H2_PHDR_FND_HOST` are about regular headers. -/
def SamePseudo (f g : List ℕ) : Prop := ∀ p, 0 < p → p ≠ h2PhdrHost → (p ∈ f ↔ p ∈ g)

theorem samePseudo_none (f : List ℕ) : SamePseudo (h2PhdrNone :: f) f := by
  intro p hp _
  have : p ≠ h2PhdrNone := Nat.pos_iff_ne_zero.mp hp
  simp [this]

theorem samePseudo_host (f : List ℕ) : SamePseudo (h2PhdrHost :: f) f := by
  intro p _ hp
  simp [hp]

theorem samePseudo_host_none (f : List ℕ) : SamePseudo (h2PhdrHost :: h2PhdrNone :: f) f := by
  intro p h0 hp
  rw [samePseudo_host _ p h0 hp, samePseudo_none f p h0 hp]

namespace H2Regular

variable {trash : ℕ} {st st' : H2ReqState} {sl : HtxSl} {hdrs : List (CStr × CStr)}

theorem congr (hr : H2Regular trash st sl hdrs) (hx : st'.htx = st.htx)
    (hp : st'.phdrVal = st.phdrVal) (hf : SamePseudo st'.fields st.fields)
    (hh : h2PhdrHost ∈ st.fields → h2PhdrHost ∈ st'.fields)
    (he : st'.msgf.extConnect = st.msgf.extConnect) : H2Regular trash st' sl hdrs := by
  have hschm := hf h2PhdrSchm (by decide) (by decide)
  have hpath := hf h2PhdrPath (by decide) (by decide)
  have hauth := hf h2PhdrAuth (by decide) (by decide)
  refine ⟨?_, ⟨?_, ?_, ?_, ?_⟩, ?_, hr.names, hr.values, hr.allowed, hr.oneHost, ?_, ?_⟩
  · rw [hx]
    exact hr.holds
  · rw [hschm]
    exact hr.line.schm
  · rw [hschm, hpath]
    exact hr.line.path
  · rw [hschm, hauth, hp]
    exact hr.line.absolute
  · rw [hschm, hauth]
    exact hr.line.origin
  · rw [he, hr.ext, H2ExtConnect, H2ExtConnect, hp, hf h2PhdrMeth (by decide) (by decide),
      hf h2PhdrProt (by decide) (by decide)]
  · intro hno
    exact hr.noHost fun hm => hno (hh hm)
  · rw [hauth, hp]
    exact hr.authHost

/-- A header is added. -/
theorem append {m : CStr} (hr : H2Regular trash st sl hdrs)
    (hx : htx.Holds sl (hdrs ++ [(m, v)]) []) (hm : NameOk m) (hv : ValueOk v)
    (ha : m ∉ h2Forbidden)
    (hh : m = bytes "host" → hdrsNamed (bytes "host") hdrs = [] ∧ h2PhdrHost ∈ st.fields ∧
      (h2PhdrAuth ∈ st.fields → v = st.phdrVal h2PhdrAuth)) :
    H2Regular trash { st with htx := htx } sl (hdrs ++ [(m, v)]) := by
  refine ⟨hx, hr.line, hr.ext, ?_, ?_, ?_, ?_, ?_, ?_⟩
  · intro h hmem
    rcases List.mem_append.mp hmem with hmem | hmem
    · exact hr.names h hmem
    · rw [List.mem_singleton.mp hmem]
      exact hm
  · intro h hmem
    rcases List.mem_append.mp hmem with hmem | hmem
    · exact hr.values h hmem
    · rw [List.mem_singleton.mp hmem]
      exact hv
  · intro h hmem
    rcases List.mem_append.mp hmem with hmem | hmem
    · exact hr.allowed h hmem
    · rw [List.mem_singleton.mp hmem]
      exact ha
  · rw [hdrsNamed_append]
    by_cases hmh : m = bytes "host"
    · rw [(hh hmh).1, hmh, hdrsNamed_singleton_self]
      simp
    · rw [hdrsNamed_singleton_of_ne v hmh, List.append_nil]
      exact hr.oneHost
  · intro hno
    have hmh : m ≠ bytes "host" := fun hmh => hno (hh hmh).2.1
    rw [hdrsNamed_append, hdrsNamed_singleton_of_ne v hmh, List.append_nil]
    exact hr.noHost hno
  · intro hauth h hmem hhost
    rcases List.mem_append.mp hmem with hmem | hmem
    · exact hr.authHost hauth h hmem hhost
    · rw [List.mem_singleton.mp hmem] at hhost ⊢
      exact (hh hhost).2.2 hauth

end H2Regular

theorem H2Clen.of_unseen {done : List H2Hdr} {hdrs : List (CStr × CStr)}
    (hd : firstClen done = none) (hb : bodyCl = false)
    (hn : hdrsNamed (bytes "content-length") hdrs = []) : H2Clen done hdrs bodyCl bodyLen :=
  ⟨fun _ => ⟨hb, hn⟩, fun v hv => by rw [hd] at hv; cases hv⟩

theorem H2Clen.other {done : List H2Hdr} {hdrs : List (CStr × CStr)} {m : CStr}
    (hc : H2Clen done hdrs bodyCl bodyLen) (hd : firstClen done' = firstClen done)
    (hm : m ≠ bytes "content-length") : H2Clen done' (hdrs ++ [(m, v)]) bodyCl bodyLen := by
  have hn : hdrsNamed (bytes "content-length") (hdrs ++ [(m, v)]) =
      hdrsNamed (bytes "content-length") hdrs := by
    rw [hdrsNamed_append, hdrsNamed_singleton_of_ne v hm, List.append_nil]
  refine ⟨?_, ?_⟩
  · rw [hd, hn]
    exact hc.unseen
  · rw [hd, hn]
    exact hc.seen

theorem H2Clen.same {done : List H2Hdr} {hdrs : List (CStr × CStr)}
    (hc : H2Clen done hdrs bodyCl bodyLen) (hd : firstClen done' = firstClen done) :
    H2Clen done' hdrs bodyCl bodyLen := by
  refine ⟨?_, ?_⟩
  · rw [hd]
    exact hc.unseen
  · rw [hd]
    exact hc.seen

theorem H2Fresh.start {trash : ℕ} {done : List H2Hdr} {st : H2ReqState} (hf : H2Fresh done st)
    (h : h2PrepareHtxReqline trash st.fields st.phdrVal st.htx st.msgf = some (htx, msgf)) :
    (∃ sl, H2Regular trash { st with htx := htx, msgf := msgf } sl []) ∧
      H2Clen done [] msgf.bodyCl st.bodyLen := by
  obtain ⟨sl, hholds, hline, hcl, hext⟩ := h2PrepareHtxReqline_spec hf.blks hf.data hf.size h
  exact ⟨⟨sl, hholds, hline, hext hf.ext, by simp, by simp, by simp, by simp [hdrsNamed],
    fun _ => rfl, by simp⟩, .of_unseen hf.clen (hcl.trans hf.bodyCl) rfl⟩

theorem H2ReqInv.of_regular {trash : ℕ} {done : List H2Hdr} {st st' : H2ReqState}
    (hi : H2ReqInv trash done st) (hd : ∀ p, 0 < p → pseudoValue done' p = pseudoValue done p)
    (hp : st'.phdrVal = st.phdrVal) (hc : st'.cookies = cookieValues done')
    (hv : ∀ v ∈ st'.cookies, ValueOk v) (hf : SamePseudo st'.fields st.fields)
    (hn : h2PhdrNone ∈ st'.fields) (hh : h2PhdrAuth ∈ st'.fields → h2PhdrHost ∈ st'.fields)
    (hr : ∃ sl hdrs, H2Regular trash st' sl hdrs ∧ H2Clen done' hdrs st'.msgf.bodyCl st'.bodyLen) :
    H2ReqInv trash done' st' := by
  refine ⟨?_, ?_, hc, hv, fun hno => absurd hn hno, fun _ => ⟨hh, hr⟩⟩
  · intro p hp0 hph
    rw [hd p hp0, hi.pseudo p hp0 hph, hp]
    exact if_congr (hf p hp0 hph).symm rfl rfl
  · rw [hp]
    exact hi.phdrVals

theorem H2ReqInv.startRegular {trash : ℕ} {done : List H2Hdr} {st st' : H2ReqState}
    (hi : H2ReqInv trash done st) (h : h2StartRegular trash st = some st') :
    H2ReqInv trash done st' ∧ h2PhdrNone ∈ st'.fields := by
  rw [h2StartRegular] at h
  by_cases hn : h2PhdrNone ∈ st.fields
  · rw [if_pos hn] at h
    cases h
    exact ⟨hi, hn⟩
  rw [if_neg hn] at h
  split at h
  next => cases h
  next htx msgf hline =>
    have hf := hi.fresh hn
    obtain ⟨⟨sl, hr⟩, hc⟩ := hf.start hline
    split_ifs at h with ha
    · -- the host is the authority
      rw [Option.map_eq_some_iff] at h
      obtain ⟨htx1, hadd, rfl⟩ := h
      have hx := hr.holds.addHeader (by decide) hadd
      have hr1 : H2Regular trash
          { st with fields := h2PhdrHost :: h2PhdrNone :: st.fields, htx := htx, msgf := msgf }
          sl [] :=
        hr.congr rfl rfl (samePseudo_host_none _) (fun _ => List.mem_cons_self) rfl
      have hr2 := hr1.append hx (by decide) (hi.phdrVals _) (by decide)
        (fun _ => ⟨rfl, List.mem_cons_self, fun _ => rfl⟩)
      exact ⟨hi.of_regular (fun _ _ => rfl) rfl hi.cookies hi.cookieVals
        (samePseudo_host_none _) (by simp) (fun _ => List.mem_cons_self)
        ⟨sl, _, hr2, hc.other rfl (by decide)⟩, by simp⟩
    · cases h
      have hr1 : H2Regular trash
          { st with fields := h2PhdrNone :: st.fields, htx := htx, msgf := msgf } sl [] :=
        hr.congr rfl rfl (samePseudo_none _) (fun hm => List.mem_cons_of_mem _ hm) rfl
      have hauth : h2PhdrAuth ∉ h2PhdrNone :: st.fields := by
        rw [samePseudo_none _ _ (by decide) (by decide)]
        exact ha
      exact ⟨hi.of_regular (fun _ _ => rfl) rfl hi.cookies hi.cookieVals (samePseudo_none _)
        List.mem_cons_self (fun hm => absurd hm hauth) ⟨sl, _, hr1, hc⟩, List.mem_cons_self⟩

/-- A regular header with its checks passed. -/
structure H2Checked (e : H2Hdr) (n : CStr) : Prop where
  name : e.n = .literal n
  phdr : e.phdr = 0
  ne : n ≠ []
  chars : n.all h2NameChar = true
  value : ValueOk e.v

section Checked

variable {e : H2Hdr} {n : CStr}

theorem H2Checked.pseudoValue (hk : H2Checked e n) (done : List H2Hdr) {p : ℕ} (hp : 0 < p) :
    pseudoValue (done ++ [e]) p = SmartHAProxy.pseudoValue done p := by
  have hne : ¬(0 : ℤ) = (p : ℤ) := by omega
  rw [pseudoValue_concat, hk.phdr, if_neg hne, Option.or_none]

theorem H2Checked.firstClen (hk : H2Checked e n) (done : List H2Hdr)
    (hn : n ≠ bytes "content-length") : firstClen (done ++ [e]) = SmartHAProxy.firstClen done := by
  have hne : e.n ≠ .literal (bytes "content-length") := by
    rw [hk.name]
    intro h
    exact hn (H2Name.literal.inj h)
  rw [firstClen_concat, if_neg hne, Option.or_none]

theorem H2Checked.cookieValues (hk : H2Checked e n) (done : List H2Hdr)
    (hn : n ≠ bytes "cookie") : cookieValues (done ++ [e]) = SmartHAProxy.cookieValues done := by
  have hne : e.n ≠ .literal (bytes "cookie") := by
    rw [hk.name]
    intro h
    exact hn (H2Name.literal.inj h)
  rw [cookieValues_concat, if_neg hne, List.append_nil]

theorem H2Checked.lc_eq_iff (hk : H2Checked e n) {t : CStr}
    (ht : t.all (fun c => !isUpper c && c != 122) = true) : n.map istLc = t ↔ n = t :=
  map_istLc_eq_iff hk.chars ht

theorem H2Checked.lc_allowed (hk : H2Checked e n) (hn : n ∉ h2Forbidden) :
    n.map istLc ∉ h2Forbidden := by
  intro hm
  apply hn
  have hall : ∀ t ∈ h2Forbidden, t.all (fun c => !isUpper c && c != 122) = true := by decide
  rwa [(hk.lc_eq_iff (hall _ hm)).mp rfl]

end Checked

theorem H2Regular.addHdr {trash : ℕ} {st st' : H2ReqState} {e : H2Hdr} {n : CStr} {sl : HtxSl}
    {hdrs : List (CStr × CStr)} (hr : H2Regular trash st sl hdrs) (hk : H2Checked e n)
    (hv : ValueOk v)
    (hh : n = bytes "host" → hdrsNamed (bytes "host") hdrs = [] ∧ h2PhdrHost ∈ st.fields ∧
      (h2PhdrAuth ∈ st.fields → v = st.phdrVal h2PhdrAuth)) (h : h2AddHdr st n v = some st') :
    (st' = { st with cookies := st.cookies ++ [v] } ∧ n = bytes "cookie") ∨
      ∃ htx, st' = { st with htx := htx } ∧ n ≠ bytes "cookie" ∧
        H2Regular trash st' sl (hdrs ++ [(n.map istLc, v)]) := by
  simp only [h2AddHdr] at h
  split_ifs at h with hforb hte hcookie
  · cases h
    exact .inl ⟨rfl, hcookie⟩
  · rw [Option.map_eq_some_iff] at h
    obtain ⟨htx, hadd, rfl⟩ := h
    refine .inr ⟨htx, rfl, hcookie, hr.append (hr.holds.addHeader hk.ne hadd)
      (nameOk_map_istLc hk.ne hk.chars) hv (hk.lc_allowed hforb) ?_⟩
    intro hlc
    exact hh ((hk.lc_eq_iff (by decide)).mp hlc)

theorem IsDecimal.valueOk {n : ℕ} (h : IsDecimal v n) : ValueOk v := by
  intro c hc
  have hd := List.all_eq_true.mp h.2.1 c hc
  refine ⟨?_, ?_, ?_⟩ <;> rintro rfl <;> revert hd <;> decide

theorem H2Clen.concat {done : List H2Hdr} {e : H2Hdr} {hdrs : List (CStr × CStr)} {cl : Bool}
    {len : ℕ} (hc : H2Clen done hdrs bodyCl bodyLen) (he : e.n = .literal (bytes "content-length"))
    (h : contLenLoop bodyCl bodyLen e.v e.v = some (cl, len, w)) :
    H2Clen (done ++ [e])
      (if bodyCl then hdrs else hdrs ++ [(bytes "content-length", w)]) cl len := by
  obtain ⟨hkeep, hval⟩ := contLenLoop_spec h
  dsimp only at hkeep hval
  have hfirst : firstClen (done ++ [e]) = (firstClen done).or (some e.v) := by
    rw [firstClen_concat, if_pos he]
  refine ⟨fun hn => ?_, fun v hv hblank => ?_⟩
  · rw [hfirst] at hn
    simp at hn
  rw [hfirst] at hv
  cases hd : firstClen done with
  | none =>
    -- the first one
    obtain ⟨rfl, hnone⟩ := hc.unseen hd
    obtain rfl : e.v = v := by simpa [hd] using hv
    rcases hval with ⟨hb, -⟩ | ⟨hcl, hdec⟩
    · exact absurd hb hblank
    · refine ⟨hcl, w, ?_, hdec⟩
      rw [if_neg (by simp), hdrsNamed_append, hnone, hdrsNamed_singleton_self, List.nil_append]
  | some v0 =>
    obtain rfl : v0 = v := by simpa [hd] using hv
    obtain ⟨rfl, w0, hnamed, hdec⟩ := hc.seen v0 hd hblank
    obtain ⟨hcl, hlen⟩ := hkeep rfl
    rw [if_pos rfl, hlen]
    exact ⟨hcl, w0, hnamed, hdec⟩

theorem H2ReqInv.regularHdr {trash : ℕ} {done : List H2Hdr} {st st' : H2ReqState} {e : H2Hdr}
    {n : CStr} (hi : H2ReqInv trash done st) (hn : h2PhdrNone ∈ st.fields) (hk : H2Checked e n)
    (h : h2RegularHdr st n e.v = some st') : H2ReqInv trash (done ++ [e]) st' := by
  obtain ⟨hauth, sl, hdrs, hr, hc⟩ := hi.regular hn
  have hd : ∀ p, 0 < p → pseudoValue (done ++ [e]) p = pseudoValue done p := by
    intro p hp
    exact hk.pseudoValue done hp
  rw [h2RegularHdr] at h
  split_ifs at h with hhost hseen hclen
  · -- a second host is dropped
    cases h
    have hck := hk.cookieValues done (by rw [hhost]; decide)
    have hfc := hk.firstClen done (by rw [hhost]; decide)
    exact hi.of_regular hd rfl (hi.cookies.trans hck.symm) hi.cookieVals
      (fun _ _ _ => Iff.rfl) hn hauth ⟨sl, hdrs, hr, hc.same hfc⟩
  · -- the first host, without an authority
    have hck := hk.cookieValues done (by rw [hhost]; decide)
    have hfc := hk.firstClen done (by rw [hhost]; decide)
    have hna : h2PhdrAuth ∉ h2PhdrHost :: st.fields := by
      rw [samePseudo_host _ _ (by decide) (by decide)]
      exact fun ha => hseen (hauth ha)
    have hr1 : H2Regular trash { st with fields := h2PhdrHost :: st.fields } sl hdrs :=
      hr.congr rfl rfl (samePseudo_host _) (fun _ => List.mem_cons_self) rfl
    have hadd := hr1.addHdr hk hk.value
      (fun _ => ⟨hr.noHost hseen, List.mem_cons_self, fun ha => absurd ha hna⟩) h
    rcases hadd with ⟨-, hcookie⟩ | ⟨htx, rfl, -, hr2⟩
    · rw [hhost] at hcookie
      exact absurd hcookie (by decide)
    · refine hi.of_regular hd rfl (hi.cookies.trans hck.symm) hi.cookieVals (samePseudo_host _)
        (List.mem_cons_of_mem _ hn) (fun ha => absurd ha hna) ⟨sl, _, hr2, hc.other hfc ?_⟩
      rw [hhost]
      decide
  · -- a content-length header
    subst hclen
    have hck := hk.cookieValues done (by decide)
    split at h
    next => cases h
    next hp =>
      simp only [h2ParseContLenHeader, Option.map_eq_some_iff] at hp
      obtain ⟨⟨cl, len, w⟩, hloop, hres⟩ := hp
      cases hres
      have hc' := hc.concat hk.name hloop
      have hwok : ValueOk w := by
        rcases (contLenLoop_spec hloop).2 with ⟨-, hw⟩ | ⟨-, hw⟩
        · obtain ⟨-, -, rfl⟩ : _ ∧ _ ∧ w = e.v := by simpa using hw
          exact hk.value
        · exact hw.valueOk
      have hr1 : H2Regular trash
          { st with msgf := { st.msgf with bodyCl := cl }, bodyLen := len, clen := true }
          sl hdrs := hr.congr rfl rfl (fun _ _ _ => Iff.rfl) id rfl
      split_ifs at h with hfirst
      · rw [Bool.not_eq_true'] at hfirst
        rw [hfirst, if_neg (by simp)] at hc'
        rcases hr1.addHdr hk hwok (fun hh => absurd hh hhost) h with
          ⟨-, hcookie⟩ | ⟨htx, rfl, -, hr2⟩
        · exact absurd hcookie (by decide)
        · exact hi.of_regular hd rfl (hi.cookies.trans hck.symm) hi.cookieVals
            (fun _ _ _ => Iff.rfl) hn hauth ⟨sl, _, hr2, hc'⟩
      · rw [Bool.not_eq_true, Bool.not_eq_false'] at hfirst
        rw [hfirst, if_pos rfl] at hc'
        cases h
        exact hi.of_regular hd rfl (hi.cookies.trans hck.symm) hi.cookieVals
          (fun _ _ _ => Iff.rfl) hn hauth ⟨sl, hdrs, hr1, hc'⟩
  · -- any other header
    have hfc := hk.firstClen done hclen
    rcases hr.addHdr hk hk.value (fun hh => absurd hh hhost) h with
      ⟨rfl, hcookie⟩ | ⟨htx, rfl, hcookie, hr2⟩
    · have hck : cookieValues (done ++ [e]) = cookieValues done ++ [e.v] := by
        rw [cookieValues_concat, if_pos (by rw [hk.name, hcookie])]
      refine hi.of_regular hd rfl (by rw [hck, hi.cookies]) ?_ (fun _ _ _ => Iff.rfl) hn hauth
        ⟨sl, hdrs, hr.congr rfl rfl (fun _ _ _ => Iff.rfl) id rfl, hc.same hfc⟩
      intro v hv
      rcases List.mem_append.mp hv with hv | hv
      · exact hi.cookieVals v hv
      · rw [List.mem_singleton.mp hv]
        exact hk.value
    · have hck := hk.cookieValues done hcookie
      refine hi.of_regular hd rfl (hi.cookies.trans hck.symm) hi.cookieVals
        (fun _ _ _ => Iff.rfl) hn hauth ⟨sl, _, hr2, hc.other hfc ?_⟩
      rwa [ne_eq, hk.lc_eq_iff (by decide)]

/-- **One turn of the loop keeps the invariant.** -/
theorem H2ReqInv.requestHdr {trash : ℕ} {done : List H2Hdr} {st st' : H2ReqState} {e : H2Hdr}
    (hi : H2ReqInv trash done st) (hend : e.isEnd = false)
    (h : h2RequestHdr trash st e = some st') : H2ReqInv trash (done ++ [e]) st' := by
  rw [h2RequestHdr] at h
  by_cases hname : h2BadName e = true
  · rw [if_pos hname] at h
    cases h
  rw [if_neg hname] at h
  split_ifs at h with hval hps hz
  · -- a pseudo-header
    have hv := valueOk_of_check (Bool.eq_false_iff.mpr hval)
    obtain ⟨k, hk⟩ := Int.eq_ofNat_of_zero_le (Int.le_of_lt hps.1)
    have hpos : 0 < k := by
      have := hps.1
      omega
    rw [hk, Int.toNat_natCast] at h
    exact hi.pseudoHdr hv hk hpos h
  · split at h <;> cases h
  · have hv := valueOk_of_check (Bool.eq_false_iff.mpr hval)
    rw [not_not] at hz
    split at h
    next => cases h
    next n hn =>
      rw [Option.bind_eq_some_iff] at h
      obtain ⟨st1, hstart, hreg⟩ := h
      obtain ⟨hi1, hnone⟩ := hi.startRegular hstart
      refine hi1.regularHdr hnone ⟨hn, hz, ?_, ?_, hv⟩ hreg
      · rintro rfl
        simp [H2Hdr.isEnd, hn] at hend
      · simpa [h2BadName, hn, hz] using hname

/-- **The run**: the invariant after all the headers of the list. -/
theorem h2RequestLoop_inv {trash size : ℕ} {body : Bool} {list : List H2Hdr} {st : H2ReqState}
    (hz : size < 2 ^ 28) (hend : ∀ e ∈ list, e.isEnd = false)
    (h : h2RequestLoop trash (.init size body bodyLen) list = some st) :
    H2ReqInv trash list st := by
  have hinit : H2ReqInv trash [] (.init size body bodyLen) := by
    refine ⟨fun p _ _ => rfl, ?_, rfl, ?_, ?_, ?_⟩
    · intro p c hc
      cases hc
    · intro v hv
      cases hv
    · intro _
      exact ⟨rfl, rfl, hz, rfl, rfl, rfl⟩
    · intro hm
      cases hm
  have hrun : (∀ e ∈ list, e.isEnd = false) → H2ReqInv trash list st := by
    refine foldlM_invariant_of_some
      (P := fun done st => (∀ e ∈ done, e.isEnd = false) → H2ReqInv trash done st)
      (fun _ => hinit) ?_ h
    intro done s e t hi hstep hall
    exact (hi fun e he => hall e (List.mem_append_left _ he)).requestHdr
      (hall e (by simp)) hstep
  exact hrun hend

end SmartHAProxy
