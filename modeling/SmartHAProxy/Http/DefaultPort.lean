/-
The default port of a scheme in a URI in absolute form (http.c, http_htx.c).

An authority ends at the first "/", "?" or "#", and the host and port stand behind
the last "@" of it.  The program reads on to the first "/", and takes the port off
with the user info still in front.  `httpDefaultPort_iff` says when it finds a
default port; `removed_host` compares what it makes of the host with the host and
port of the URI.
-/
import SmartHAProxy.Http.Normalize

namespace SmartHAProxy

variable {scheme authority host uri rest path : CStr}

/-! ### The parts of a URI -/

/-- What ends an authority: "/", "?" or "#". -/
def uriDelim (c : UInt8) : Bool := c == 47 || c == 63 || c == 35

/-- The authority, of a URI without its scheme. -/
def uriAuthority (rest : CStr) : CStr := rest.takeWhile fun c => !uriDelim c

/-- The path, the query and the fragment. -/
def uriTail (rest : CStr) : CStr := rest.dropWhile fun c => !uriDelim c

/-- The user info of an authority, with its "@". -/
def userInfo (authority : CStr) : CStr := (authority.reverse.dropWhile (· != 64)).reverse

def hostPort (authority : CStr) : CStr := (authority.reverse.takeWhile (· != 64)).reverse

/-- The default port of a scheme, with its ":"; nothing for other schemes. -/
def defaultPort (scheme : CStr) : CStr :=
  if isteqi scheme (bytes "https://") then bytes ":443"
  else if isteqi scheme (bytes "http://") then bytes ":80"
  else []

/-- The host and port, without the port if it is the default one. -/
def dropDefaultPort (scheme a : CStr) : CStr :=
  if defaultPort scheme <:+ a then a.take (a.length - (defaultPort scheme).length) else a

/-- The URI without the default port, for `rest` behind the scheme. -/
def normalUri (scheme rest : CStr) : CStr :=
  scheme ++ userInfo (uriAuthority rest) ++
    dropDefaultPort scheme (hostPort (uriAuthority rest)) ++ uriTail rest

/-- The scheme has a default port, and `a` ends in it. -/
def EndsInDefault (scheme a : CStr) : Prop := defaultPort scheme ≠ [] ∧ defaultPort scheme <:+ a

instance EndsInDefault.decidable (scheme a : CStr) : Decidable (EndsInDefault scheme a) :=
  inferInstanceAs (Decidable (_ ∧ _))

theorem userInfo_append (authority : CStr) :
    userInfo authority ++ hostPort authority = authority := by
  rw [userInfo, hostPort, ← List.reverse_append, List.takeWhile_append_dropWhile,
    List.reverse_reverse]

theorem uriAuthority_append (rest : CStr) : uriAuthority rest ++ uriTail rest = rest :=
  List.takeWhile_append_dropWhile

theorem userInfo_last (authority : CStr) :
    userInfo authority = [] ∨ ∃ u, userInfo authority = u ++ [64] := by
  rw [userInfo]
  rcases h : authority.reverse.dropWhile (· != 64) with - | ⟨c, u⟩
  · exact .inl rfl
  · refine .inr ⟨u.reverse, ?_⟩
    have hc : (c != 64) = false := by
      have := List.head?_dropWhile_not (· != (64 : UInt8)) authority.reverse
      rw [h] at this
      simpa using this
    rw [List.reverse_cons, show c = 64 by simpa using hc]

theorem uriTail_head (rest : CStr) :
    uriTail rest = [] ∨ ∃ c r, uriTail rest = c :: r ∧ uriDelim c = true := by
  rcases h : uriTail rest with - | ⟨c, r⟩
  · exact .inl rfl
  · refine .inr ⟨c, r, rfl, ?_⟩
    have := List.head?_dropWhile_not (fun c => !uriDelim c) rest
    rw [show rest.dropWhile (fun c => !uriDelim c) = c :: r from h] at this
    simpa using this

theorem defaultPort_cases (scheme : CStr) :
    defaultPort scheme = bytes ":443" ∨ defaultPort scheme = bytes ":80" ∨
      defaultPort scheme = [] := by
  rw [defaultPort]
  split_ifs
  · exact .inl rfl
  · exact .inr (.inl rfl)
  · exact .inr (.inr rfl)

theorem mem_defaultPort {c : UInt8} (h : c ∈ defaultPort scheme) : c ∈ bytes ":80443" := by
  have hsub : ∀ port : CStr, port.all (fun d => d ∈ bytes ":80443") = true → c ∈ port →
      c ∈ bytes ":80443" := fun port hport hc => of_decide_eq_true (List.all_eq_true.mp hport c hc)
  rcases defaultPort_cases scheme with hp | hp | hp <;> rw [hp] at h
  · exact hsub _ (by decide) h
  · exact hsub _ (by decide) h
  · cases h

theorem defaultPort_head {c : UInt8} {r : CStr} (h : defaultPort scheme = c :: r) : c = 58 := by
  rcases defaultPort_cases scheme with hp | hp | hp <;> rw [hp] at h <;> cases h <;> rfl

/-! ### What the program looks for -/

theorem splitPort_eq_some {port : CStr} (h : splitPort authority = some (host, port)) :
    authority = host ++ 58 :: port := by
  simp only [splitPort] at h
  split at h
  next hd _ hs =>
    obtain ⟨rfl, rfl⟩ : _ ∧ _ := by simpa using h
    have := List.takeWhile_append_dropWhile (p := isDigit) (l := authority.reverse)
    rw [hs] at this
    calc authority = authority.reverse.reverse := authority.reverse_reverse.symm
      _ = (authority.reverse.takeWhile isDigit ++ 58 :: _).reverse := congrArg _ this.symm
      _ = _ := by simp
  next => cases h

theorem splitPort_append_80 (host : CStr) :
    splitPort (host ++ bytes ":80") = some (host, bytes "80") := by
  rw [splitPort, List.reverse_append]
  show some (host.reverse.reverse, _) = _
  rw [List.reverse_reverse]
  rfl

theorem splitPort_append_443 (host : CStr) :
    splitPort (host ++ bytes ":443") = some (host, bytes "443") := by
  rw [splitPort, List.reverse_append]
  show some (host.reverse.reverse, _) = _
  rw [List.reverse_reverse]
  rfl

theorem isteqi_https_of_http (h : isteqi scheme (bytes "http://") = true) :
    isteqi scheme (bytes "https://") = false := by
  rw [isteqi, beq_iff_eq] at h
  rw [isteqi, h]
  rfl

theorem uriIsDefaultPort_iff {port : CStr} :
    uriIsDefaultPort scheme port = true ↔ defaultPort scheme = 58 :: port := by
  rw [uriIsDefaultPort, defaultPort]
  by_cases hs : isteqi scheme (bytes "https://") = true
  · have hn : isteqi scheme (bytes "http://") = false := by
      by_contra hne
      have := isteqi_https_of_http (Bool.not_eq_false _ ▸ hne)
      rw [hs] at this
      cases this
    simp only [hs, hn, if_true, Bool.and_true, Bool.and_false, Bool.or_false, beq_iff_eq]
    exact ⟨fun h => by rw [h]; rfl, fun h => (List.cons.inj h).2.symm⟩
  · rw [Bool.not_eq_true] at hs
    by_cases hn : isteqi scheme (bytes "http://") = true
    · simp only [hs, hn, if_true, Bool.and_false, Bool.and_true, Bool.false_or, beq_iff_eq,
        Bool.false_eq_true, if_false]
      exact ⟨fun h => by rw [h]; rfl, fun h => (List.cons.inj h).2.symm⟩
    · simp [hs, hn]

/-- **The program finds a default port** where the text up to the "/" ends in it. -/
theorem httpDefaultPort_iff (huri : httpParseScheme uri = some (scheme, rest)) :
    httpDefaultPort uri = some (scheme, host, path) ↔
      defaultPort scheme ≠ [] ∧ (httpParseAuthority rest).1 = host ++ defaultPort scheme ∧
        (httpParseAuthority rest).2 = path := by
  simp only [httpDefaultPort, huri, Option.bind_eq_bind, Option.bind_some]
  generalize httpParseAuthority rest = parts
  obtain ⟨authority, path'⟩ := parts
  simp only
  constructor
  · intro h
    rw [Option.bind_eq_some_iff] at h
    obtain ⟨⟨h', port⟩, hs, h⟩ := h
    simp only at h
    split_ifs at h with hd
    cases h
    rw [uriIsDefaultPort_iff] at hd
    rw [hd.2]
    exact ⟨List.cons_ne_nil _ _, splitPort_eq_some hs, rfl⟩
  · rintro ⟨hne, rfl, rfl⟩
    rcases defaultPort_cases scheme with hp | hp | hp
    · rw [hp, splitPort_append_443, Option.bind_some]
      exact if_pos ⟨List.cons_ne_nil _ _, uriIsDefaultPort_iff.mpr hp⟩
    · rw [hp, splitPort_append_80, Option.bind_some]
      exact if_pos ⟨List.cons_ne_nil _ _, uriIsDefaultPort_iff.mpr hp⟩
    · exact absurd hp hne

theorem httpDefaultPort_scheme {scheme' : CStr} (huri : httpParseScheme uri = some (scheme, rest))
    (h : httpDefaultPort uri = some (scheme', host, path)) : scheme' = scheme := by
  simp only [httpDefaultPort, huri, Option.bind_eq_bind, Option.bind_some,
    Option.bind_eq_some_iff] at h
  obtain ⟨_, -, h⟩ := h
  split_ifs at h
  cases h
  rfl

theorem httpDefaultPort_eq_none (huri : httpParseScheme uri = some (scheme, rest)) :
    httpDefaultPort uri = none ↔ ¬ EndsInDefault scheme (httpParseAuthority rest).1 := by
  rw [← not_iff_not, not_not, ← ne_eq, Option.ne_none_iff_exists']
  constructor
  · rintro ⟨⟨scheme', host, path⟩, h⟩
    obtain rfl := httpDefaultPort_scheme huri h
    obtain ⟨hne, ha, -⟩ := (httpDefaultPort_iff huri).mp h
    exact ⟨hne, host, ha.symm⟩
  · rintro ⟨hne, host, ha⟩
    exact ⟨_, (httpDefaultPort_iff huri).mpr ⟨hne, ha.symm, rfl⟩⟩

theorem httpParseScheme_of_scheme (h : httpParseScheme uri = some (scheme, rest)) (r : CStr) :
    httpParseScheme (scheme ++ r) = some (scheme, r) ∧
      ∃ c s, scheme = c :: s ∧ isAlpha c = true := by
  simp only [httpParseScheme] at h
  split at h
  next => cases h
  next c cs =>
    split_ifs at h with hc
    split at h
    next hd =>
      obtain ⟨rfl, rfl⟩ : _ ∧ _ := by simpa using h
      refine ⟨?_, c, _, rfl, hc⟩
      generalize hs : cs.takeWhile (fun d => isAlpha d || isDigit d || d == 43 || d == 45 ||
        d == 46) = s
      have hall : ∀ d ∈ s, (isAlpha d || isDigit d || d == 43 || d == 45 || d == 46) = true := by
        intro d hd'
        rw [← hs] at hd'
        have := List.mem_takeWhile_imp hd'
        exact this
      simp only [httpParseScheme, List.cons_append, List.append_assoc, hc, if_true,
        List.dropWhile_append_of_pos hall, List.takeWhile_append_of_pos hall]
      rfl
    next => cases h

theorem httpParseAuthority_append (hhost : ∀ c ∈ host, c ≠ 47)
    (hpath : path = [] ∨ ∃ r, path = 47 :: r) :
    httpParseAuthority (host ++ path) = (host, path) := by
  have hall : ∀ c ∈ host, (c != 47) = true := by simpa using hhost
  rw [httpParseAuthority, List.takeWhile_append_of_pos hall, List.dropWhile_append_of_pos hall]
  rcases hpath with rfl | ⟨r, rfl⟩ <;> simp

theorem httpParseAuthority_parts (rest : CStr) :
    (∀ c ∈ (httpParseAuthority rest).1, c ≠ 47) ∧
      ((httpParseAuthority rest).2 = [] ∨ ∃ r, (httpParseAuthority rest).2 = 47 :: r) := by
  constructor
  · intro c hc
    simpa using List.mem_takeWhile_imp hc
  · rcases h : (httpParseAuthority rest).2 with - | ⟨c, r⟩
    · exact .inl rfl
    · refine .inr ⟨r, ?_⟩
      have := List.head?_dropWhile_not (· != (47 : UInt8)) rest
      rw [show rest.dropWhile (· != 47) = c :: r from h] at this
      rw [show c = 47 by simpa using this]

theorem httpUriAuthority_append (huri : httpParseScheme uri = some (scheme, rest))
    (hhost : ∀ c ∈ host, c ≠ 47 ∧ c ≠ 64) (hpath : path = [] ∨ ∃ r, path = 47 :: r) :
    httpUriAuthority (scheme ++ (host ++ path)) = (scheme, host, path) := by
  obtain ⟨hscheme, c, s, rfl, hc⟩ := httpParseScheme_of_scheme huri (host ++ path)
  have hne : (c == 42 || c == 47) = false := by
    rw [Bool.or_eq_false_iff, beq_eq_false_iff_ne, beq_eq_false_iff_ne]
    constructor
    · rintro rfl
      exact absurd hc (by decide)
    · rintro rfl
      exact absurd hc (by decide)
  have hat : host.reverse.takeWhile (· != 64) = host.reverse := by
    rw [List.takeWhile_eq_self_iff]
    intro d hd
    rw [bne_iff_ne]
    exact (hhost d (List.mem_reverse.mp hd)).2
  rw [List.cons_append] at hscheme ⊢
  simp only [httpUriAuthority, hne, Bool.false_eq_true, if_false, hscheme, Option.getD_some,
    httpParseAuthority_append (fun d hd => (hhost d hd).1) hpath, hat, List.reverse_reverse,
    Nat.sub_self, List.take_zero, List.append_nil]

theorem httpParseAuthority_eq (rest : CStr) :
    ∃ query, (httpParseAuthority rest).1 = uriAuthority rest ++ query ∧
      uriTail rest = query ++ (httpParseAuthority rest).2 ∧
      ∀ c r, query = c :: r → uriDelim c = true ∧ c ≠ 47 := by
  have hall : ∀ c ∈ uriAuthority rest, (c != 47) = true := by
    intro c hc
    have h : uriDelim c = false := by simpa using List.mem_takeWhile_imp hc
    rw [bne_iff_ne]
    rintro rfl
    exact absurd h (by decide)
  refine ⟨(uriTail rest).takeWhile (· != 47), ?_, ?_, ?_⟩
  · show rest.takeWhile (· != 47) = _
    conv_lhs => rw [← uriAuthority_append rest]
    rw [List.takeWhile_append_of_pos hall]
  · show _ = _ ++ rest.dropWhile (· != 47)
    conv_rhs => rw [← uriAuthority_append rest]
    rw [List.dropWhile_append_of_pos hall, uriAuthority_append, List.takeWhile_append_dropWhile]
  · intro c r h
    rcases uriTail_head rest with ht | ⟨c', r', ht, hc⟩
    · rw [ht] at h
      cases h
    · rw [ht, List.takeWhile_cons] at h
      split_ifs at h with hne
      cases h
      exact ⟨hc, by simpa using hne⟩

/-! ### The host without its port -/

theorem dropDefaultPort_append (scheme host : CStr) :
    dropDefaultPort scheme (host ++ defaultPort scheme) = host := by
  rw [dropDefaultPort, if_pos (List.suffix_append _ _), List.length_append, Nat.add_sub_cancel,
    List.take_left]

theorem dropDefaultPort_of_not {a : CStr} (h : ¬ EndsInDefault scheme a) :
    dropDefaultPort scheme a = a := by
  rw [dropDefaultPort]
  split_ifs with hs
  · -- the scheme has no default port
    have hp : defaultPort scheme = [] := by
      by_contra hne
      exact h ⟨hne, hs⟩
    rw [hp, List.length_nil, Nat.sub_zero, List.take_length]
  · rfl

theorem dropDefaultPort_eq_self {a : CStr} (h : dropDefaultPort scheme a = a) :
    ¬ EndsInDefault scheme a := by
  rintro ⟨hne, host, rfl⟩
  rw [dropDefaultPort_append] at h
  have hlen := congrArg List.length h
  rw [List.length_append] at hlen
  have := List.length_pos_iff.mpr hne
  omega

theorem endsInDefault_of_userInfo (hne : defaultPort scheme ≠ [])
    (h : authority = host ++ defaultPort scheme) : EndsInDefault scheme (hostPort authority) := by
  have happ := (userInfo_append authority).trans h
  rcases List.append_eq_append_iff.mp happ with ⟨u, -, ha⟩ | ⟨u, hu, hp⟩
  · exact ⟨hne, u, ha.symm⟩
  · rcases List.eq_nil_or_concat u with rfl | ⟨u', c, rfl⟩
    · exact ⟨hne, [], hp⟩
    · -- the last character of the user info is "@", and no port has one
      have hc : c = 64 := by
        rcases userInfo_last authority with hnil | ⟨v, hv⟩
        · rw [hnil] at hu
          simp at hu
        · rw [hv, List.concat_eq_append, ← List.append_assoc] at hu
          exact (List.cons.inj (List.append_inj' hu rfl).2).1.symm
      have hmem : (64 : UInt8) ∈ defaultPort scheme := by
        rw [hp, hc]
        simp
      exact absurd (mem_defaultPort hmem) (by decide)

theorem length_lt_of_query {query : CStr} (hquery : ∀ c r, query = c :: r → uriDelim c = true)
    (hne : query ≠ []) (h : authority ++ query = host ++ defaultPort scheme) :
    ∃ q, q ≠ [] ∧ host = authority ++ q := by
  obtain ⟨c, r, rfl⟩ := List.exists_cons_of_ne_nil hne
  have hc := hquery c r rfl
  rcases List.append_eq_append_iff.mp h with ⟨q, hhost, hq⟩ | ⟨q, -, hp⟩
  · refine ⟨q, ?_, hhost⟩
    rintro rfl
    rw [List.nil_append] at hq
    rw [defaultPort_head hq.symm] at hc
    exact absurd hc (by decide)
  · have hmem : c ∈ defaultPort scheme := by
      rw [hp]
      simp
    have hno : (bytes ":80443").all (fun d => !uriDelim d) = true := by decide
    have hfalse := List.all_eq_true.mp hno c (mem_defaultPort hmem)
    rw [hc] at hfalse
    cases hfalse

theorem normalUri_eq_self_iff :
    normalUri scheme rest = scheme ++ rest ↔
      ¬ EndsInDefault scheme (hostPort (uriAuthority rest)) := by
  have hrest : scheme ++ rest = scheme ++ userInfo (uriAuthority rest) ++
      hostPort (uriAuthority rest) ++ uriTail rest := by
    conv_lhs => rw [← uriAuthority_append rest, ← userInfo_append (uriAuthority rest)]
    simp only [List.append_assoc]
  rw [hrest, normalUri]
  constructor
  · intro h
    rw [List.append_left_inj, List.append_right_inj] at h
    exact dropDefaultPort_eq_self h
  · intro h
    rw [dropDefaultPort_of_not h]

/-- **What the program makes of the host** begins the host and port without the
default port only if there is no user info, and the authority ends at the "/". -/
theorem removed_host {w : CStr} (hne : defaultPort scheme ≠ [])
    (hparts : (httpParseAuthority rest).1 = host ++ defaultPort scheme)
    (hpre : host ++ w <+: dropDefaultPort scheme (hostPort (uriAuthority rest))) :
    userInfo (uriAuthority rest) = [] ∧ uriAuthority rest = (httpParseAuthority rest).1 ∧
      w = [] := by
  obtain ⟨query, ha, -, hquery⟩ := httpParseAuthority_eq rest
  have happ := userInfo_append (uriAuthority rest)
  generalize uriAuthority rest = authority at *
  have hlen := hpre.length_le
  rw [List.length_append] at hlen
  have hal := congrArg List.length happ
  rw [List.length_append] at hal
  have hpl := congrArg List.length (ha.symm.trans hparts)
  rw [List.length_append, List.length_append] at hpl
  by_cases hends : EndsInDefault scheme (hostPort authority)
  · -- the lengths leave no room for anything else
    obtain ⟨-, a, hport⟩ := hends
    rw [← hport, dropDefaultPort_append] at hlen
    have hpa := congrArg List.length hport
    rw [List.length_append] at hpa
    have hu : userInfo authority = [] := List.length_eq_zero_iff.mp (by omega)
    have hq : query = [] := List.length_eq_zero_iff.mp (by omega)
    have hw : w = [] := List.length_eq_zero_iff.mp (by omega)
    refine ⟨hu, ?_, hw⟩
    rw [ha, hq, List.append_nil]
  · rw [dropDefaultPort_of_not hends] at hlen
    exfalso
    rcases List.eq_nil_or_concat query with rfl | ⟨q, c, hq⟩
    · rw [List.append_nil] at ha
      exact hends (endsInDefault_of_userInfo hne (ha.symm.trans hparts))
    · have hqne : query ≠ [] := by
        rw [hq]
        simp
      obtain ⟨q', hq', hhost⟩ := length_lt_of_query (fun c r h => (hquery c r h).1) hqne
        (ha.symm.trans hparts)
      have hl := congrArg List.length hhost
      rw [List.length_append] at hl
      have := List.length_pos_iff.mpr hq'
      omega

end SmartHAProxy
