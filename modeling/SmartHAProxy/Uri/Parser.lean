/-
The URI parser (http.c, haproxy/http.h, haproxy/http-t.h).

A parser is asked for the scheme, the authority and the path, in this order; elements of
no interest may be skipped.  Each request takes what it found off the string.

Without a scheme the URI is an authority, and has no path.  `http_parse_path` checks this
only if the scheme has not been asked for before, so that the answer depends on earlier
requests (`uriConsistent_iff`).  The authority ends at a slash, and at no other character
(`authorityClean_iff`).
-/
import SmartHAProxy.Uri.Dotdot

namespace SmartHAProxy

variable {earlier : List UriRequest}

/-! ### The parser -/

/-- `enum http_uri_parser_state`. -/
inductive UriParserState
  | before
  | schemeDone
  | authorityDone
  | pathDone
  deriving DecidableEq

/-- `enum http_uri_parser_format`. -/
inductive UriParserFormat
  | empty
  | asterisk
  | abspath
  | absuriOrAuthority
  deriving DecidableEq

def UriParserState.rank : UriParserState → ℕ
  | before => 0
  | schemeDone => 1
  | authorityDone => 2
  | pathDone => 3

/-- `struct http_uri_parser`. -/
structure HttpUriParser where
  uri : CStr
  state : UriParserState
  format : UriParserFormat

def uriFormat : CStr → UriParserFormat
  | [] => .empty
  | 42 :: _ => .asterisk
  | 47 :: _ => .abspath
  | _ :: _ => .absuriOrAuthority

def httpUriParserInit (uri : CStr) : HttpUriParser := ⟨uri, .before, uriFormat uri⟩

/-- `http_parse_scheme`; `none` is `IST_NULL`. -/
def HttpUriParser.parseScheme (parser : HttpUriParser) : Option CStr × HttpUriParser :=
  if parser.state.rank ≥ 1 ∨ parser.format ≠ .absuriOrAuthority then
    (none, { parser with state := .schemeDone })
  else
    match httpParseScheme parser.uri with
    | none => (none, { parser with state := .schemeDone })
    | some (scheme, rest) => (some scheme, { parser with uri := rest, state := .schemeDone })

/-- What stands behind the last `@`. -/
def skipUserinfo (authority : CStr) : CStr := (authority.reverse.takeWhile (· != 64)).reverse

/-- `http_parse_authority`. -/
def HttpUriParser.parseAuthority (parser : HttpUriParser) (noUserinfo : Bool) :
    Option CStr × HttpUriParser :=
  if parser.state.rank ≥ 2 ∨ parser.format ≠ .absuriOrAuthority then
    (none, { parser with state := .authorityDone })
  else
    let parser := if parser.state.rank < 1 then parser.parseScheme.2 else parser
    let (authority, rest) := httpParseAuthority parser.uri
    (some (if noUserinfo then skipUserinfo authority else authority),
      { parser with uri := rest, state := .authorityDone })

/-- The end of `http_parse_path` for an absolute form. -/
def HttpUriParser.pathBehind (parser : HttpUriParser) : Option CStr × HttpUriParser :=
  let parser := if parser.state.rank < 2 then (parser.parseAuthority true).2 else parser
  (if parser.uri = [] then none else some parser.uri, { parser with state := .pathDone })

/-- `http_parse_path`. -/
def HttpUriParser.parsePath (parser : HttpUriParser) : Option CStr × HttpUriParser :=
  if parser.state.rank ≥ 3 ∨ parser.format = .empty ∨ parser.format = .asterisk then
    (none, { parser with state := .pathDone })
  else if parser.format = .absuriOrAuthority then
    if parser.state.rank < 1 then
      -- if no scheme found, uri is in authority format: no path is present
      match parser.parseScheme with
      | (none, parser) => (none, { parser with state := .pathDone })
      | (some _, parser) => parser.pathBehind
    else parser.pathBehind
  else (some parser.uri, { parser with state := .pathDone })

/-! ### Requests -/

inductive UriRequest
  | scheme
  | authority (noUserinfo : Bool)
  | path
  deriving DecidableEq

def UriRequest.rank : UriRequest → ℕ
  | scheme => 0
  | authority _ => 1
  | path => 2

def HttpUriParser.request (parser : HttpUriParser) : UriRequest → Option CStr × HttpUriParser
  | .scheme => parser.parseScheme
  | .authority noUserinfo => parser.parseAuthority noUserinfo
  | .path => parser.parsePath

/-- The answer to `r` after the requests `earlier`, on one parser. -/
def uriAnswer (uri : CStr) (earlier : List UriRequest) (r : UriRequest) : Option CStr :=
  ((earlier.foldl (fun parser r => (parser.request r).2) (httpUriParserInit uri)).request r).1

/-- Each element at most once, in the order of the elements in a URI. -/
def InOrder (requests : List UriRequest) : Prop := requests.Pairwise (·.rank < ·.rank)

/-- The answers do not depend on earlier requests. -/
def UriConsistent (uri : CStr) : Prop :=
  ∀ earlier r, InOrder (earlier ++ [r]) → uriAnswer uri earlier r = uriAnswer uri [] r

/-- A scheme: a letter, then letters, digits, `+`, `-` and `.`. -/
def IsScheme : CStr → Prop
  | [] => False
  | c :: cs => isAlpha c ∧ ∀ d ∈ cs, isAlpha d || isDigit d || d == 43 || d == 45 || d == 46

/-- The absolute form: a scheme, `://` and the rest. -/
def AbsoluteForm (uri : CStr) : Prop :=
  ∃ scheme rest, IsScheme scheme ∧ uri = scheme ++ [58, 47, 47] ++ rest

/-- The elements of an absolute form are the whole URI. -/
def UriWhole (uri : CStr) : Prop :=
  AbsoluteForm uri →
    (uriAnswer uri [] .scheme).getD [] ++ (uriAnswer uri [.scheme] (.authority false)).getD []
      ++ (uriAnswer uri [.scheme, .authority false] .path).getD [] = uri

/-- Neither `/` nor `?` nor `#`. -/
def NoDelimiter (s : CStr) : Prop := ∀ c ∈ s, c ≠ 47 ∧ c ≠ 63 ∧ c ≠ 35

def AuthorityClean (uri : CStr) : Prop :=
  ∀ earlier noUserinfo authority, InOrder (earlier ++ [.authority noUserinfo]) →
    uriAnswer uri earlier (.authority noUserinfo) = some authority → NoDelimiter authority

/-- A URI without an authority, one whose authority stands between its scheme and the first slash
behind it and has no delimiter, or one without scheme and delimiter. -/
def SplitForm (uri : CStr) : Prop :=
  uri = [] ∨ uri.head? = some 42 ∨ uri.head? = some 47 ∨
    (∃ scheme authority path, IsScheme scheme ∧
      uri = scheme ++ [58, 47, 47] ++ authority ++ path ∧ NoDelimiter authority ∧
      (path = [] ∨ path.head? = some 47)) ∨
    (¬ AbsoluteForm uri ∧ NoDelimiter uri)

/-! ### The scheme -/

theorem httpParseScheme_eq_some {uri s rest : CStr} (h : httpParseScheme uri = some (s, rest)) :
    ∃ scheme, IsScheme scheme ∧ s = scheme ++ [58, 47, 47] ∧ uri = s ++ rest := by
  have huri := (httpParseScheme_append h).symm
  unfold httpParseScheme at h
  split at h
  · cases h
  · rename_i c cs
    split_ifs at h with halpha
    dsimp only at h
    split at h
    · obtain ⟨rfl, rfl⟩ := Prod.mk.inj (Option.some.inj h)
      refine ⟨c :: _, ⟨halpha, fun d hd => ?_⟩, rfl, huri⟩
      have hd' := List.mem_takeWhile_imp hd
      exact hd'
    · cases h

theorem httpParseScheme_of_isScheme {scheme : CStr} (h : IsScheme scheme) (rest : CStr) :
    httpParseScheme (scheme ++ [58, 47, 47] ++ rest) = some (scheme ++ [58, 47, 47], rest) := by
  rcases scheme with - | ⟨c, cs⟩
  · exact h.elim
  obtain ⟨halpha, hcs⟩ := h
  have hsplit : cs ++ [58, 47, 47] ++ rest = cs ++ 58 :: 47 :: 47 :: rest := by
    rw [List.append_assoc]
    rfl
  rw [List.cons_append, List.cons_append, httpParseScheme, if_pos halpha, hsplit]
  dsimp only
  rw [List.dropWhile_append_of_pos hcs, List.takeWhile_append_of_pos hcs,
    List.dropWhile_cons_of_neg (by decide), List.takeWhile_cons_of_neg (by decide), List.append_nil]
  rfl

theorem absoluteForm_iff {uri : CStr} : AbsoluteForm uri ↔ httpParseScheme uri ≠ none := by
  constructor
  · rintro ⟨scheme, rest, hs, rfl⟩
    rw [httpParseScheme_of_isScheme hs]
    exact Option.some_ne_none _
  · intro h
    obtain ⟨⟨s, rest⟩, hs⟩ := Option.ne_none_iff_exists'.mp h
    obtain ⟨scheme, hscheme, rfl, rfl⟩ := httpParseScheme_eq_some hs
    exact ⟨scheme, rest, hscheme, rfl⟩

/-! ### The orders of the requests -/

theorem inOrder_single (r : UriRequest) : InOrder ([] ++ [r]) := List.pairwise_singleton _ _

theorem inOrder_cases {r : UriRequest} (h : InOrder (earlier ++ [r])) :
    earlier = [] ∨ (∃ f, r = .authority f ∧ earlier = [.scheme]) ∨
      (r = .path ∧ (earlier = [.scheme] ∨ (∃ f, earlier = [.authority f]) ∨
        ∃ f, earlier = [.scheme, .authority f])) := by
  have hpair := List.pairwise_append.mp h
  match earlier, hpair with
  | [], _ => exact .inl rfl
  | [x], ⟨_, _, hx⟩ =>
    right
    have hlt : x.rank < r.rank := hx x List.mem_cons_self r List.mem_cons_self
    cases x <;> cases r <;> simp_all [UriRequest.rank]
  | [x, y], ⟨hxy, _, hx⟩ =>
    right
    have hlt : y.rank < r.rank := hx y (by simp) r List.mem_cons_self
    have hlt' : x.rank < y.rank := by simpa using hxy
    cases x <;> cases y <;> cases r <;> simp_all [UriRequest.rank]
  | x :: y :: z :: rest, ⟨hxy, _, hx⟩ =>
    have h1 : x.rank < y.rank := (List.pairwise_cons.mp hxy).1 y (by simp)
    have h2 : y.rank < z.rank :=
      (List.pairwise_cons.mp (List.pairwise_cons.mp hxy).2).1 z (by simp)
    have h3 : z.rank < r.rank := hx z (by simp) r List.mem_cons_self
    have h4 : r.rank ≤ 2 := by cases r <;> simp [UriRequest.rank]
    omega

/-! ### The answers -/

def pathOf (rest : CStr) : Option CStr := if rest = [] then none else some rest

/-- The authority with or without the user info. -/
def authorityOf (rest : CStr) (noUserinfo : Bool) : CStr :=
  if noUserinfo then skipUserinfo (httpParseAuthority rest).1 else (httpParseAuthority rest).1

/-- What is left behind the scheme, if there is one. -/
def behindScheme (uri : CStr) : CStr := (httpParseScheme uri).elim uri Prod.snd

section Answers

variable {uri s rest : CStr}

theorem rank_before : UriParserState.before.rank < 1 := Nat.one_pos

theorem parseScheme_before (uri : CStr) :
    HttpUriParser.parseScheme ⟨uri, .before, .absuriOrAuthority⟩
      = ((httpParseScheme uri).map Prod.fst, ⟨behindScheme uri, .schemeDone, .absuriOrAuthority⟩) := by
  rw [HttpUriParser.parseScheme, if_neg (by simp [UriParserState.rank]), behindScheme]
  cases httpParseScheme uri <;> rfl

theorem parseAuthority_schemeDone (uri : CStr) (f : Bool) :
    HttpUriParser.parseAuthority ⟨uri, .schemeDone, .absuriOrAuthority⟩ f
      = (some (authorityOf uri f),
        ⟨(httpParseAuthority uri).2, .authorityDone, .absuriOrAuthority⟩) := rfl

theorem parseAuthority_before (uri : CStr) (f : Bool) :
    HttpUriParser.parseAuthority ⟨uri, .before, .absuriOrAuthority⟩ f
      = HttpUriParser.parseAuthority ⟨behindScheme uri, .schemeDone, .absuriOrAuthority⟩ f := by
  rw [parseAuthority_schemeDone, HttpUriParser.parseAuthority,
    if_neg (by simp [UriParserState.rank]), if_pos rank_before, parseScheme_before]
  rfl

theorem parsePath_authorityDone (uri : CStr) :
    (HttpUriParser.parsePath ⟨uri, .authorityDone, .absuriOrAuthority⟩).1 = pathOf uri := rfl

theorem parsePath_schemeDone (uri : CStr) :
    (HttpUriParser.parsePath ⟨uri, .schemeDone, .absuriOrAuthority⟩).1
      = pathOf (httpParseAuthority uri).2 := rfl

theorem parsePath_before (uri : CStr) :
    (HttpUriParser.parsePath ⟨uri, .before, .absuriOrAuthority⟩).1
      = (httpParseScheme uri).bind fun p => pathOf (httpParseAuthority p.2).2 := by
  rw [HttpUriParser.parsePath, if_neg (by simp [UriParserState.rank]), if_pos rfl,
    if_pos rank_before, parseScheme_before, behindScheme]
  cases httpParseScheme uri <;> rfl

theorem httpUriParserInit_eq (hf : uriFormat uri = .absuriOrAuthority) :
    httpUriParserInit uri = ⟨uri, .before, .absuriOrAuthority⟩ := by
  rw [httpUriParserInit, hf]

theorem answer_authority (hf : uriFormat uri = .absuriOrAuthority) {f : Bool}
    (h : InOrder (earlier ++ [.authority f])) :
    uriAnswer uri earlier (.authority f) = some (authorityOf (behindScheme uri) f) := by
  rcases inOrder_cases h with rfl | ⟨f, -, rfl⟩ | ⟨hr, -⟩
  · show (HttpUriParser.parseAuthority (httpUriParserInit uri) f).1 = _
    rw [httpUriParserInit_eq hf, parseAuthority_before, parseAuthority_schemeDone]
  · show (HttpUriParser.parseAuthority (httpUriParserInit uri).parseScheme.2 _).1 = _
    rw [httpUriParserInit_eq hf, parseScheme_before, parseAuthority_schemeDone]
  · cases hr

theorem answer_path (hf : uriFormat uri = .absuriOrAuthority) (hne : earlier ≠ [])
    (h : InOrder (earlier ++ [.path])) :
    uriAnswer uri earlier .path = pathOf (httpParseAuthority (behindScheme uri)).2 := by
  rcases inOrder_cases h with rfl | ⟨f, hr, -⟩ | ⟨-, rfl | ⟨f, rfl⟩ | ⟨f, rfl⟩⟩
  · exact absurd rfl hne
  · cases hr
  · show (HttpUriParser.parsePath (httpUriParserInit uri).parseScheme.2).1 = _
    rw [httpUriParserInit_eq hf, parseScheme_before, parsePath_schemeDone]
  · show (HttpUriParser.parsePath ((httpUriParserInit uri).parseAuthority f).2).1 = _
    rw [httpUriParserInit_eq hf, parseAuthority_before, parseAuthority_schemeDone,
      parsePath_authorityDone]
  · show (HttpUriParser.parsePath ((httpUriParserInit uri).parseScheme.2.parseAuthority f).2).1 = _
    rw [httpUriParserInit_eq hf, parseScheme_before, parseAuthority_schemeDone,
      parsePath_authorityDone]

theorem answer_path_fresh (hf : uriFormat uri = .absuriOrAuthority) :
    uriAnswer uri [] .path
      = (httpParseScheme uri).bind fun p => pathOf (httpParseAuthority p.2).2 := by
  show (HttpUriParser.parsePath (httpUriParserInit uri)).1 = _
  rw [httpUriParserInit_eq hf, parsePath_before]

theorem request_other {parser : HttpUriParser} (hf : parser.format ≠ .absuriOrAuthority)
    (hst : parser.state ≠ .pathDone) (r : UriRequest) :
    (parser.request r).1
        = (if r = .path ∧ parser.format = .abspath then some parser.uri else none) ∧
      (parser.request r).2.uri = parser.uri ∧ (parser.request r).2.format = parser.format ∧
      (r ≠ .path → (parser.request r).2.state ≠ .pathDone) := by
  have hrank : ¬ parser.state.rank ≥ 3 := by
    cases hs : parser.state <;> simp_all [UriParserState.rank]
  cases r with
  | scheme =>
    rw [HttpUriParser.request, HttpUriParser.parseScheme, if_pos (.inr hf)]
    simp
  | authority f =>
    rw [HttpUriParser.request, HttpUriParser.parseAuthority, if_pos (.inr hf)]
    simp
  | path =>
    rw [HttpUriParser.request, HttpUriParser.parsePath]
    by_cases habs : parser.format = .abspath
    · rw [if_neg (by simp [hrank, habs]), if_neg hf]
      simp [habs]
    · rw [if_pos (by cases hfmt : parser.format <;> simp_all)]
      simp [habs]

theorem answer_other (hf : uriFormat uri ≠ .absuriOrAuthority) {r : UriRequest}
    (h : InOrder (earlier ++ [r])) :
    uriAnswer uri earlier r = if r = .path ∧ uriFormat uri = .abspath then some uri else none := by
  suffices hrun : ∀ parser : HttpUriParser, parser.format ≠ .absuriOrAuthority →
      parser.state ≠ .pathDone → InOrder (earlier ++ [r]) →
      ((earlier.foldl (fun parser r => (parser.request r).2) parser).request r).1
        = if r = .path ∧ parser.format = .abspath then some parser.uri else none from
    hrun (httpUriParserInit uri) hf UriParserState.noConfusion h
  clear h
  induction earlier with
  | nil => exact fun parser hf hst _ => (request_other hf hst r).1
  | cons x earlier ih =>
    intro parser hf hst h
    obtain ⟨-, huri, hfmt, hst'⟩ := request_other hf hst x
    have hlt : x.rank < r.rank := (List.pairwise_cons.mp h).1 r (by simp)
    have hx : x ≠ .path := by
      rintro rfl
      have hle : r.rank ≤ 2 := by cases r <;> simp [UriRequest.rank]
      exact absurd hlt (Nat.not_lt.mpr hle)
    rw [List.foldl_cons, ih (parser.request x).2 (by rwa [hfmt]) (hst' hx)
      (List.pairwise_cons.mp h).2, hfmt, huri]

end Answers

/-! ### The three properties -/

theorem uriFormat_eq_iff {uri : CStr} : uriFormat uri = .absuriOrAuthority ↔
    uri ≠ [] ∧ uri.head? ≠ some 42 ∧ uri.head? ≠ some 47 := by
  rcases uri with - | ⟨c, cs⟩
  · simp [uriFormat]
  · rw [uriFormat.eq_def]
    split <;> simp_all

theorem pathOf_dropWhile_eq_none {s : CStr} : pathOf (httpParseAuthority s).2 = none ↔ 47 ∉ s := by
  rw [pathOf, httpParseAuthority]
  dsimp only
  have hnil : s.dropWhile (· != 47) = [] ↔ 47 ∉ s := by
    rw [List.dropWhile_eq_nil_iff]
    exact ⟨fun h hmem => by simpa using h 47 hmem, fun h c hc => by
      simpa using fun hc' : c = 47 => h (hc' ▸ hc)⟩
  rw [← hnil]
  split <;> simp_all

theorem takeWhile_of_no_slash {s : CStr} (h : 47 ∉ s) : (httpParseAuthority s).1 = s := by
  refine List.takeWhile_eq_self_iff.mpr fun c hc => ?_
  simpa using fun hc' : c = 47 => h (hc' ▸ hc)

theorem takeWhile_authority {authority path : CStr} (h : 47 ∉ authority)
    (hpath : path = [] ∨ path.head? = some 47) :
    (httpParseAuthority (authority ++ path)).1 = authority := by
  have hauth : ∀ c ∈ authority, (c != 47) = true := fun c hc => by
    simpa using fun hc' : c = 47 => h (hc' ▸ hc)
  rw [httpParseAuthority]
  dsimp only
  rw [List.takeWhile_append_of_pos hauth]
  rcases hpath with rfl | hpath
  · rw [List.takeWhile_nil, List.append_nil]
  · obtain ⟨cs, rfl⟩ := List.head?_eq_some_iff.mp hpath
    rw [List.takeWhile_cons_of_neg (by decide), List.append_nil]

theorem dropWhile_head (s : CStr) :
    (httpParseAuthority s).2 = [] ∨ (httpParseAuthority s).2.head? = some 47 := by
  rw [httpParseAuthority]
  dsimp only
  cases h : s.dropWhile (· != 47) with
  | nil => exact .inl rfl
  | cons c cs =>
    right
    have hc := List.head_dropWhile_not (· != 47) (l := s) (by rw [h]; exact List.cons_ne_nil _ _)
    simp only [h, List.head_cons, bne_eq_false_iff_eq] at hc
    rw [List.head?_cons, hc]

theorem uriConsistent_iff (uri : CStr) : UriConsistent uri ↔
    uriFormat uri = .absuriOrAuthority → httpParseScheme uri = none → 47 ∉ uri := by
  constructor
  · intro h hf hs
    have hpath := h [.scheme] .path (by simp [InOrder, UriRequest.rank])
    rw [answer_path hf (by simp) (by simp [InOrder, UriRequest.rank]), answer_path_fresh hf, hs,
      behindScheme, hs] at hpath
    exact pathOf_dropWhile_eq_none.mp hpath
  · intro h earlier r horder
    by_cases hf : uriFormat uri = .absuriOrAuthority
    · cases r with
      | scheme =>
        obtain rfl : earlier = [] := by
          rcases inOrder_cases horder with rfl | ⟨f, hr, -⟩ | ⟨hr, -⟩
          · rfl
          · cases hr
          · cases hr
        rfl
      | authority f =>
        rw [answer_authority hf horder, answer_authority hf (inOrder_single _)]
      | path =>
        by_cases hne : earlier = []
        · rw [hne]
        · rw [answer_path hf hne horder, answer_path_fresh hf]
          cases hs : httpParseScheme uri with
          | none =>
            rw [behindScheme, hs]
            exact pathOf_dropWhile_eq_none.mpr (h hf hs)
          | some p =>
            rw [behindScheme, hs]
            rfl
    · rw [answer_other hf horder, answer_other hf (inOrder_single _)]

theorem uriFormat_of_scheme {uri : CStr} {p : CStr × CStr} (h : httpParseScheme uri = some p) :
    uriFormat uri = .absuriOrAuthority := by
  rw [uriFormat_eq_iff]
  refine ⟨?_, ?_, ?_⟩
  · rintro rfl
    cases h
  all_goals
    intro hhead
    obtain ⟨cs, rfl⟩ := List.head?_eq_some_iff.mp hhead
    rw [httpParseScheme, if_neg (by decide)] at h
    cases h

theorem uriWhole (uri : CStr) : UriWhole uri := by
  rintro ⟨scheme, rest, hscheme, huri⟩
  have hs : httpParseScheme uri = some (scheme ++ [58, 47, 47], rest) := by
    rw [huri, httpParseScheme_of_isScheme hscheme]
  have hf := uriFormat_of_scheme hs
  have hpath : ∀ s : CStr, (pathOf s).getD [] = s := fun s => by
    rw [pathOf]
    split
    · simp_all
    · rfl
  have hsch : uriAnswer uri [] .scheme = some (scheme ++ [58, 47, 47]) := by
    show (HttpUriParser.parseScheme (httpUriParserInit uri)).1 = _
    rw [httpUriParserInit_eq hf, parseScheme_before, hs]
    rfl
  rw [hsch, answer_authority hf (by simp [InOrder, UriRequest.rank]),
    answer_path hf (by simp) (by simp [InOrder, UriRequest.rank]), hpath, behindScheme, hs]
  show scheme ++ [58, 47, 47] ++ rest.takeWhile (· != 47) ++ rest.dropWhile (· != 47) = uri
  rw [List.append_assoc _ (rest.takeWhile _), List.takeWhile_append_dropWhile, huri]

theorem skipUserinfo_subset (authority : CStr) : skipUserinfo authority ⊆ authority := by
  intro c hc
  rw [skipUserinfo, List.mem_reverse] at hc
  exact List.mem_reverse.mp ((List.takeWhile_sublist _).subset hc)

theorem authorityClean_iff (uri : CStr) : AuthorityClean uri ↔
    (uriFormat uri = .absuriOrAuthority →
      NoDelimiter (httpParseAuthority (behindScheme uri)).1) := by
  constructor
  · intro h hf
    exact h [] false _ (inOrder_single _)
      (answer_authority hf (inOrder_single _))
  · intro h earlier f authority horder hauth
    by_cases hf : uriFormat uri = .absuriOrAuthority
    · rw [answer_authority hf horder] at hauth
      obtain rfl := Option.some.inj hauth
      intro c hc
      refine h hf c ?_
      cases f
      · exact hc
      · exact skipUserinfo_subset _ hc
    · rw [answer_other hf horder, if_neg (fun hr => by cases hr.1)] at hauth
      cases hauth

/-- **The elements of a URI are the same for every order of the requests, make up an absolute form
and have an authority without delimiters, if and only if the URI has one of the usual forms.** -/
theorem uri_split_iff (uri : CStr) :
    (UriConsistent uri ∧ UriWhole uri ∧ AuthorityClean uri) ↔ SplitForm uri := by
  rw [uriConsistent_iff, authorityClean_iff]
  by_cases hf : uriFormat uri = .absuriOrAuthority
  · obtain ⟨hnil, h42, h47⟩ := uriFormat_eq_iff.mp hf
    cases hs : httpParseScheme uri with
    | none =>
      have habs : ¬ AbsoluteForm uri := fun h => absoluteForm_iff.mp h hs
      have hbehind : behindScheme uri = uri := by rw [behindScheme, hs]; rfl
      rw [hbehind]
      constructor
      · rintro ⟨hslash, -, hclean⟩
        rw [takeWhile_of_no_slash (hslash hf rfl)] at hclean
        exact .inr (.inr (.inr (.inr ⟨habs, hclean hf⟩)))
      · rintro (h | h | h | ⟨scheme, authority, path, hscheme, h, -⟩ | ⟨-, hclean⟩)
        · exact absurd h hnil
        · exact absurd h h42
        · exact absurd h h47
        · exact absurd ⟨scheme, authority ++ path, hscheme, by rw [h, List.append_assoc]⟩ habs
        · have hslash : 47 ∉ uri := fun h => (hclean 47 h).1 rfl
          rw [takeWhile_of_no_slash hslash]
          exact ⟨fun _ _ => hslash, uriWhole uri, fun _ => hclean⟩
    | some p =>
      obtain ⟨s, rest⟩ := p
      have hbehind : behindScheme uri = rest := by rw [behindScheme, hs]; rfl
      rw [hbehind]
      constructor
      · rintro ⟨-, -, hclean⟩
        obtain ⟨scheme, hscheme, rfl, huri⟩ := httpParseScheme_eq_some hs
        refine .inr (.inr (.inr (.inl ⟨scheme, (httpParseAuthority rest).1,
          (httpParseAuthority rest).2, hscheme, ?_, hclean hf, ?_⟩)))
        · rw [List.append_assoc _ (httpParseAuthority rest).1, huri]
          exact congrArg _ List.takeWhile_append_dropWhile.symm
        · exact dropWhile_head rest
      · rintro (h | h | h | ⟨scheme, authority, path, hscheme, h, hclean, hpath⟩ | ⟨habs, -⟩)
        · exact absurd h hnil
        · exact absurd h h42
        · exact absurd h h47
        · rw [h, List.append_assoc _ authority, httpParseScheme_of_isScheme hscheme] at hs
          obtain ⟨-, rfl⟩ := Prod.mk.inj (Option.some.inj hs)
          refine ⟨fun _ h => absurd h (Option.some_ne_none _), uriWhole uri, fun _ => ?_⟩
          rw [takeWhile_authority (fun h => (hclean 47 h).1 rfl) hpath]
          exact hclean
        · exact absurd (absoluteForm_iff.mpr (by rw [hs]; exact Option.some_ne_none _)) habs
  · refine ⟨fun _ => ?_, fun _ => ⟨fun h => absurd h hf, uriWhole uri, fun h => absurd h hf⟩⟩
    rw [uriFormat_eq_iff] at hf
    rw [SplitForm]
    tauto

/-- The path of `a/b` is missing if it is asked for first, and `/b` after the scheme or the
authority; the authority of `a://b?c` is `b?c`. -/
theorem uri_not_split :
    ¬ (∀ uri, UriConsistent uri ∧ UriWhole uri ∧ AuthorityClean uri) ∧
    ¬ UriConsistent [97, 47, 98] ∧ ¬ AuthorityClean [97, 58, 47, 47, 98, 63, 99] := by
  have hcons : ¬ UriConsistent [97, 47, 98] := fun h =>
    (uriConsistent_iff _).mp h rfl (by decide) (by decide)
  have hclean : ¬ AuthorityClean [97, 58, 47, 47, 98, 63, 99] := fun h => by
    have hauth : (httpParseAuthority (behindScheme [97, 58, 47, 47, 98, 63, 99])).1
        = [98, 63, 99] := by decide
    have hdelim := (authorityClean_iff _).mp h rfl
    rw [hauth] at hdelim
    exact (hdelim 63 (by decide)).2.1 rfl
  exact ⟨fun h => hcons (h _).1, hcons, hclean⟩

end SmartHAProxy
