/-
The whitelist file: written by smartdrop (`fileWrite` of smartdrop.py), read
by HAProxy (`updateWhitelist` of whitelist.c).

The writer emits one row per task, the four columns of the task key followed
by the allowed servers:

    method,url,query,content,servers\n

The reader takes the *first two* columns of every row that `fgets` delivers
and inserts them as `(method, servers)`.  So what ends up in the table under a
method is the second column of its last row, which is the url of a task and
not its server list.

Main results: `roundTrip_iff`, exactly when a dictionary survives the trip all
the same, and `not_roundTrip_of_slash`, that it never does with urls that start
with a slash.  Keys of any shape and length: `RoundTrip.readsBack` and
`ReadsBack.roundTrip`, in terms of the rows that are read.
-/
import SmartHAProxy.Http.Basic
import SmartHAProxy.Whitelist.Table

namespace SmartHAProxy

def maxColumn : ℕ := 512

def comma : UInt8 := 44

def newline : UInt8 := 10

/-! ### The writer (smartdrop.py) -/

/-- The columns of a task key, as bytes of the file. -/
structure TaskKey where
  method : CStr
  url : CStr
  query : CStr
  content : CStr
  deriving DecidableEq, Repr

/-- `f'{method},{url},{query},{content}'`. -/
def TaskKey.text (t : TaskKey) : CStr :=
  t.method ++ comma :: (t.url ++ comma :: (t.query ++ comma :: t.content))

/-- The whitelist dictionary: the allowed servers of every task. -/
abbrev Dictionary := List (TaskKey × List CStr)

/-- The server list of a task as a string, `'0'` when it is empty. -/
def serverList (servers : List CStr) : CStr :=
  if servers = [] then bytes "0" else servers.flatten

/-- One row of the file, without its newline. -/
def rowOf (e : TaskKey × List CStr) : CStr :=
  e.1.text ++ comma :: serverList e.2

def fileWrite (whitelist : Dictionary) : CStr :=
  whitelist.flatMap fun e => rowOf e ++ [newline]

/-! ### The reader (whitelist.c) -/

/-- The two columns `updateWhitelist` copies out of a row. -/
def parseRow (row : List UInt8) : Except Fault (CStr × CStr) :=
  match strtok comma (row.takeWhile (· != 0)) with
  | none => .error .nullPointer
  | some (tkn, rest) => do
    let method ← strcpy maxColumn tkn
    match strtok comma rest with
    | none => .error .nullPointer
    | some (tkn, _) => do
      let servers ← strcpy maxColumn tkn
      pure (method, servers)

def updateWhitelist (wl : Whitelist) (file : CStr) : Except Fault Whitelist :=
  (fgetsAll maxLine file).foldlM (fun wl row => do
    let o ← parseRow row
    insertRequest wl o.1 o.2) wl

/-! ### The lookup key (backend.c, http.c) -/

/-- The key of a request is the name of its method, known for two methods
only.  `none` is the NULL pointer. -/
def fetchMethod : HttpMeth → Option CStr
  | .get => some (bytes "GET")
  | .post => some (bytes "POST")
  | _ => none

def fetchKey (meth : HttpMeth) : Option CStr := fetchMethod meth

theorem fetchKey_eq_some_iff {m key : CStr} :
    fetchKey (findHttpMeth m) = some key
      ↔ (m = bytes "GET" ∨ m = bytes "POST") ∧ key = m := by
  by_cases hget : m = bytes "GET"
  · subst hget
    simp [fetchKey, fetchMethod, findHttpMeth, eq_comm]
  by_cases hpost : m = bytes "POST"
  · subst hpost
    have hmeth : findHttpMeth (bytes "POST") = .post := by decide
    simp [fetchKey, fetchMethod, hmeth, eq_comm]
  have hnone : fetchKey (findHttpMeth m) = none := by
    unfold findHttpMeth
    rw [if_neg hget, if_neg hpost]
    split_ifs <;> rfl
  simp [hnone, hget, hpost]

/-! ### The file as the reader sees it -/

/-- The `(method, servers)` pairs read from a file: the first two columns of
every row that `fgets` delivers. -/
def fileRows (file : CStr) : Except Fault (List (CStr × CStr)) :=
  (fgetsAll maxLine file).mapM parseRow

/-- No two methods of the file share a slot. -/
def NoCollision (ops : List (CStr × CStr)) : Prop :=
  ∀ o ∈ ops, ∀ p ∈ ops, hashRequest o.1 = hashRequest p.1 → o.1 = p.1

theorem foldlM_parse_insert {rows : List (List UInt8)} {wl wl' : Whitelist} :
    rows.foldlM (fun wl row => do
        let o ← parseRow row
        insertRequest wl o.1 o.2) wl = .ok wl'
      ↔ ∃ ops, rows.mapM parseRow = .ok ops ∧ insertAll wl ops = .ok wl' := by
  induction rows generalizing wl with
  | nil => simp [insertAll, pure, Except.pure]
  | cons row rows ih =>
    simp only [List.foldlM_cons, List.mapM_cons, bind_eq_ok_iff, ih]
    constructor
    · rintro ⟨wl₁, ⟨o, ho, hins⟩, ops, hops, hall⟩
      refine ⟨o :: ops, ⟨o, ho, ops, hops, rfl⟩, ?_⟩
      exact bind_eq_ok_iff.mpr ⟨wl₁, hins, hall⟩
    · rintro ⟨ops', ⟨o, ho, ops, hops, heq⟩, hall⟩
      obtain rfl : o :: ops = ops' := by simpa [pure, Except.pure] using heq
      obtain ⟨wl₁, hins, hall⟩ := bind_eq_ok_iff.mp hall
      exact ⟨wl₁, ⟨o, ho, hins⟩, ops, hops, hall⟩

theorem updateWhitelist_eq_ok_iff {wl wl' : Whitelist} {file : CStr} :
    updateWhitelist wl file = .ok wl'
      ↔ ∃ ops, fileRows file = .ok ops ∧ insertAll wl ops = .ok wl' :=
  foldlM_parse_insert

theorem NoCollision.owner_eq {ops : List (CStr × CStr)} (h : NoCollision ops) {k : CStr}
    (hk : k ∈ ops.map Prod.fst) :
    (owner hashRequest ops (hashRequest k)).map Prod.fst = some k := by
  obtain ⟨o, ho, rfl⟩ := List.mem_map.mp hk
  rcases e : owner hashRequest ops (hashRequest o.1) with - | p
  · have := lastValue_eq_none_of_owner e
    exact absurd hk (lastValue_eq_none_iff.mp this)
  · obtain ⟨hp, hhash⟩ := owner_mem e
    simp [h p hp o ho hhash]

/-! ### The round trip -/

/-- The dictionary survives the trip: the file is read into the empty table
without a fault, and the request of every task finds the server list of the
task under the key `fetchKey` gives it. -/
def RoundTrip (d : Dictionary) : Prop :=
  ∃ wl, updateWhitelist (createWhitelist capacity) (fileWrite d) = .ok wl ∧
    ∀ e ∈ d, ∃ key, fetchKey (findHttpMeth e.1.method) = some key ∧
      searchRequest wl key = .ok (some (serverList e.2))

/-- The rows of the file happen to say what the reader takes them to say:
every row has two columns that fit, the inserts they stand for meet no fault,
and the last row of each task's method has the server list of the task in its
second column. -/
def ReadsBack (d : Dictionary) : Prop :=
  ∃ ops, fileRows (fileWrite d) = .ok ops ∧ AllAdmitted ops ∧
    ∀ e ∈ d, (e.1.method = bytes "GET" ∨ e.1.method = bytes "POST") ∧
      lastValue ops e.1.method = some (serverList e.2)

theorem RoundTrip.readsBack {d : Dictionary} (h : RoundTrip d) : ReadsBack d := by
  obtain ⟨wl, hupd, hfind⟩ := h
  obtain ⟨ops, hops, hrun⟩ := updateWhitelist_eq_ok_iff.mp hupd
  obtain ⟨hall, hwl⟩ := insertAll_holds hrun
  refine ⟨ops, hops, hall, fun e he => ?_⟩
  obtain ⟨key, hkey, hsearch⟩ := hfind e he
  obtain ⟨hmeth, rfl⟩ := fetchKey_eq_some_iff.mp hkey
  refine ⟨hmeth, ?_⟩
  have hk : 0 ≤ hashRequest e.1.method := by rcases hmeth with h | h <;> rw [h] <;> decide
  rw [hwl.searchRequest_eq hk] at hsearch
  split_ifs at hsearch with hown
  · simpa using hsearch
  · simp at hsearch

theorem ReadsBack.roundTrip {d : Dictionary} (h : ReadsBack d)
    (hcoll : ∀ ops, fileRows (fileWrite d) = .ok ops → NoCollision ops) : RoundTrip d := by
  obtain ⟨ops, hops, hall, hlast⟩ := h
  obtain ⟨wl, hrun⟩ := insertAll_of_allAdmitted hall
  refine ⟨wl, updateWhitelist_eq_ok_iff.mpr ⟨ops, hops, hrun⟩, fun e he => ?_⟩
  obtain ⟨hmeth, hval⟩ := hlast e he
  refine ⟨e.1.method, fetchKey_eq_some_iff.mpr ⟨hmeth, rfl⟩, ?_⟩
  have hk : 0 ≤ hashRequest e.1.method := by rcases hmeth with h | h <;> rw [h] <;> decide
  have hmem : e.1.method ∈ ops.map Prod.fst :=
    lastValue_isSome_iff.mp (by rw [hval]; rfl)
  rw [(insertAll_holds hrun).2.searchRequest_eq hk, if_pos ((hcoll ops hops).owner_eq hmem),
    hval]

/-! ### Keys with four columns -/

/-- A row as smartdrop means it: the columns have no comma, and `fgets` delivers the row as one
line. -/
structure RegularRow (e : TaskKey × List CStr) : Prop where
  columns : ∀ col ∈ [e.1.method, e.1.url, e.1.query, e.1.content, serverList e.2], comma ∉ col
  line : ∀ b ∈ rowOf e, b ≠ newline ∧ b ≠ 0
  fits : (rowOf e).length + 1 < maxLine

/-- What stands in the second column: the url, or what follows if columns are empty. -/
def readColumn (e : TaskKey × List CStr) : CStr :=
  if e.1.url ≠ [] then e.1.url
  else if e.1.query ≠ [] then e.1.query
  else if e.1.content ≠ [] then e.1.content
  else serverList e.2 ++ [newline]

def firstTask (d : Dictionary) (method : CStr) : Option (TaskKey × List CStr) :=
  d.find? fun e => e.1.method = method

def lastTask (d : Dictionary) (method : CStr) : Option (TaskKey × List CStr) :=
  d.reverse.find? fun e => e.1.method = method

/-- The urls happen to be what the reader takes them for: every task has one of the methods that
have a key, and the last task with this method has the servers of the task for its url.  No url is
longer than the url of the first task with its method, whose entry is allocated for it. -/
structure UrlsAreServers (d : Dictionary) : Prop where
  method : ∀ e ∈ d, e.1.method = bytes "GET" ∨ e.1.method = bytes "POST"
  short : ∀ e ∈ d, (readColumn e).length < maxColumn
  last : ∀ e ∈ d, ∀ f, lastTask d e.1.method = some f → readColumn f = serverList e.2
  room : ∀ e ∈ d, ∀ f, firstTask d e.1.method = some f →
    (readColumn e).length ≤ (readColumn f).length

variable {d : Dictionary} {e : TaskKey × List CStr}

theorem method_column {m : CStr} (h : m = bytes "GET" ∨ m = bytes "POST") :
    m ≠ [] ∧ m.length < maxLine ∧ m.length < maxColumn ∧ 0 ≤ hashRequest m := by
  rcases h with rfl | rfl <;> decide

/-- The two methods have different slots. -/
theorem hashRequest_inj {m m' : CStr} (h : m = bytes "GET" ∨ m = bytes "POST")
    (h' : m' = bytes "GET" ∨ m' = bytes "POST") : hashRequest m = hashRequest m' ↔ m = m' := by
  rcases h with rfl | rfl <;> rcases h' with rfl | rfl <;> decide

theorem RegularRow.second (h : RegularRow e) : ∃ rest, strtok comma (e.1.url ++ comma ::
    (e.1.query ++ comma :: (e.1.content ++ comma :: (serverList e.2 ++ [newline]))))
      = some (readColumn e, rest) := by
  obtain ⟨-, hurl, hquery, hcontent, hservers⟩ : _ ∧ _ ∧ _ ∧ _ ∧ _ := by simpa using h.columns
  rw [readColumn]
  -- empty columns are skipped
  by_cases hu : e.1.url = []
  swap
  · exact ⟨_, by rw [if_pos hu, strtok_column hu hurl]⟩
  rw [if_neg (not_not.mpr hu), hu, List.nil_append, strtok_delim]
  by_cases hq : e.1.query = []
  swap
  · exact ⟨_, by rw [if_pos hq, strtok_column hq hquery]⟩
  rw [if_neg (not_not.mpr hq), hq, List.nil_append, strtok_delim]
  by_cases hc : e.1.content = []
  swap
  · exact ⟨_, by rw [if_pos hc, strtok_column hc hcontent]⟩
  rw [if_neg (not_not.mpr hc), hc, List.nil_append, strtok_delim]
  have hlast : comma ∉ serverList e.2 ++ [newline] := by
    rw [List.mem_append, List.mem_singleton]
    exact fun h => h.elim hservers (by decide)
  exact ⟨[], strtok_last (List.append_ne_nil_of_right_ne_nil _ (List.cons_ne_nil _ _)) hlast⟩

theorem RegularRow.parseRow_eq (h : RegularRow e)
    (hm : e.1.method = bytes "GET" ∨ e.1.method = bytes "POST") :
    parseRow (rowOf e ++ [newline]) =
      (strcpy maxColumn (readColumn e)).map fun servers => (e.1.method, servers) := by
  obtain ⟨hne, -, hfits, -⟩ := method_column hm
  have hcomma : comma ∉ e.1.method := h.columns _ List.mem_cons_self
  have hnul : (rowOf e ++ [newline]).takeWhile (· != 0) = rowOf e ++ [newline] := by
    refine List.takeWhile_eq_self_iff.mpr fun b hb => ?_
    rcases List.mem_append.mp hb with hb | hb
    · simpa using (h.line b hb).2
    · obtain rfl := List.mem_singleton.mp hb
      decide
  have hrow : rowOf e ++ [newline] = e.1.method ++ comma :: (e.1.url ++ comma ::
      (e.1.query ++ comma :: (e.1.content ++ comma :: (serverList e.2 ++ [newline])))) := by
    simp [rowOf, TaskKey.text]
  obtain ⟨rest, hsecond⟩ := h.second
  rw [parseRow, hnul, hrow, strtok_column hne hcomma]
  simp only [strcpy_eq_ok.mpr ⟨hfits, rfl⟩, hsecond]
  rcases strcpy maxColumn (readColumn e) with f | s <;> rfl

/-- **The rows of regular tasks** are their methods and second columns, if these fit. -/
theorem fileRows_regular (h : ∀ e ∈ d, RegularRow e)
    (hm : ∀ e ∈ d, e.1.method = bytes "GET" ∨ e.1.method = bytes "POST")
    {ops : List (CStr × CStr)} :
    fileRows (fileWrite d) = .ok ops ↔ (∀ e ∈ d, (readColumn e).length < maxColumn) ∧
      ops = d.map fun e => (e.1.method, readColumn e) := by
  induction d generalizing ops with
  | nil => simp [fileRows, fileWrite, fgetsAll, fgetsRows, pure, Except.pure, eq_comm]
  | cons e d ih =>
    obtain ⟨he, h⟩ := List.forall_mem_cons.mp h
    obtain ⟨hme, hm⟩ := List.forall_mem_cons.mp hm
    have hfile : fileWrite (e :: d) = rowOf e ++ 10 :: fileWrite d := by
      simp [fileWrite, newline]
    have hread : fgetsAll maxLine (fileWrite (e :: d))
        = (rowOf e ++ [newline]) :: fgetsAll maxLine (fileWrite d) := by
      rw [hfile]
      exact fgetsAll_line (fun hnl => (he.line _ hnl).1 rfl) he.fits
    rw [fileRows, hread, List.mapM_cons, bind_eq_ok_iff, he.parseRow_eq hme]
    constructor
    · rintro ⟨o, ho, hrest⟩
      obtain ⟨ops', hops', heq⟩ := bind_eq_ok_iff.mp hrest
      obtain ⟨hshort, rfl⟩ := (ih h hm).mp hops'
      obtain rfl : o :: _ = ops := by simpa [pure, Except.pure] using heq
      rcases hcopy : strcpy maxColumn (readColumn e) with f | s
      · rw [hcopy] at ho
        cases ho
      · rw [hcopy] at ho
        cases ho
        obtain ⟨hlt, rfl⟩ := strcpy_eq_ok.mp hcopy
        exact ⟨List.forall_mem_cons.mpr ⟨hlt, hshort⟩, rfl⟩
    · rintro ⟨hshort, rfl⟩
      obtain ⟨hlt, hshort⟩ := List.forall_mem_cons.mp hshort
      refine ⟨(e.1.method, readColumn e), by rw [strcpy_eq_ok.mpr ⟨hlt, rfl⟩]; rfl, ?_⟩
      exact bind_eq_ok_iff.mpr ⟨_, (ih h hm).mpr ⟨hshort, rfl⟩, rfl⟩

theorem exists_lastTask (he : e ∈ d) : ∃ f ∈ d, lastTask d e.1.method = some f := by
  have hsome : (lastTask d e.1.method).isSome := by
    rw [lastTask, List.find?_isSome]
    exact ⟨e, List.mem_reverse.mpr he, by simp⟩
  obtain ⟨f, hf⟩ := Option.isSome_iff_exists.mp hsome
  exact ⟨f, List.mem_reverse.mp (List.mem_of_find?_eq_some hf), hf⟩

theorem lastValue_tasks (d : Dictionary) (m : CStr) :
    lastValue (d.map fun e => (e.1.method, readColumn e)) m
      = (lastTask d m).map readColumn := by
  rw [lastValue, ← List.map_reverse, List.find?_map, Option.map_map]
  rfl

theorem owner_tasks (hm : ∀ e ∈ d, e.1.method = bytes "GET" ∨ e.1.method = bytes "POST")
    {m : CStr} (h : m = bytes "GET" ∨ m = bytes "POST") :
    owner hashRequest (d.map fun e => (e.1.method, readColumn e)) (hashRequest m)
      = (firstTask d m).map fun e => (e.1.method, readColumn e) := by
  rw [owner, List.find?_map, firstTask]
  congr 1
  induction d with
  | nil => rfl
  | cons e d ih =>
    obtain ⟨he, hm⟩ := List.forall_mem_cons.mp hm
    have hiff : (hashRequest e.1.method = hashRequest m) = (e.1.method = m) :=
      propext (hashRequest_inj he h)
    rw [List.find?_cons, List.find?_cons, ih hm]
    simp only [Function.comp_apply, hiff]

theorem firstTask_append (l r : Dictionary) (m : CStr) :
    firstTask (l ++ r) m = (firstTask l m).or (firstTask r m) := List.find?_append

/-- No fault is met exactly if no column is longer than the first one of its method. -/
theorem allAdmitted_tasks (hm : ∀ e ∈ d, e.1.method = bytes "GET" ∨ e.1.method = bytes "POST") :
    AllAdmitted (d.map fun e => (e.1.method, readColumn e)) ↔
      ∀ e ∈ d, ∀ f, firstTask d e.1.method = some f →
        (readColumn e).length ≤ (readColumn f).length := by
  constructor
  · intro h e he f hf
    obtain ⟨l, r, rfl⟩ := List.append_of_mem he
    have hl : ∀ e ∈ l, e.1.method = bytes "GET" ∨ e.1.method = bytes "POST" :=
      fun e he => hm e (List.mem_append_left _ he)
    have hadm := h (l.map fun e => (e.1.method, readColumn e)) (e.1.method, readColumn e)
      ⟨r.map fun e => (e.1.method, readColumn e), by simp⟩
    rw [firstTask_append] at hf
    rcases hfirst : firstTask l e.1.method with - | g
    · -- the task is the first one itself
      rw [hfirst, Option.none_or, firstTask, List.find?_cons_of_pos (by simp)] at hf
      exact Nat.le_of_eq (by rw [Option.some.inj hf])
    · rw [hfirst, Option.some_or, Option.some.injEq] at hf
      have hown := owner_tasks hl (hm e he)
      rw [hfirst] at hown
      have hmeth : g.1.method = e.1.method := by simpa using List.find?_some hfirst
      rw [← hf]
      exact hadm.2.2 _ hown hmeth
  · rintro h pre o ⟨r, hpre⟩
    rw [List.append_assoc, List.append_eq_map_iff] at hpre
    obtain ⟨l, r', hd, rfl, hr⟩ := hpre
    obtain ⟨e, s, rfl, rfl, -⟩ := List.map_eq_cons_iff.mp hr
    have he : e ∈ d := hd ▸ List.mem_append_right l List.mem_cons_self
    have hl : ∀ e ∈ l, e.1.method = bytes "GET" ∨ e.1.method = bytes "POST" :=
      fun e he => hm e (hd ▸ List.mem_append_left _ he)
    obtain ⟨-, hlen, -, hslot⟩ := method_column (hm e he)
    refine ⟨hlen, hslot, fun p hp _ => ?_⟩
    rw [owner_tasks hl (hm e he)] at hp
    obtain ⟨f, hf, rfl⟩ := Option.map_eq_some_iff.mp hp
    refine h e he f ?_
    rw [hd, firstTask_append, hf, Option.some_or]

theorem noCollision_tasks (hm : ∀ e ∈ d, e.1.method = bytes "GET" ∨ e.1.method = bytes "POST") :
    NoCollision (d.map fun e => (e.1.method, readColumn e)) := by
  intro o ho p hp
  obtain ⟨e, he, rfl⟩ := List.mem_map.mp ho
  obtain ⟨f, hf, rfl⟩ := List.mem_map.mp hp
  exact (hashRequest_inj (hm e he) (hm f hf)).mp

theorem RoundTrip.urlsAreServers (h : ∀ e ∈ d, RegularRow e) (hrt : RoundTrip d) :
    UrlsAreServers d := by
  obtain ⟨ops, hops, hall, hlast⟩ := hrt.readsBack
  have hm : ∀ e ∈ d, e.1.method = bytes "GET" ∨ e.1.method = bytes "POST" :=
    fun e he => (hlast e he).1
  obtain ⟨hshort, rfl⟩ := (fileRows_regular h hm).mp hops
  refine ⟨hm, hshort, fun e he f hf => ?_, (allAdmitted_tasks hm).mp hall⟩
  have hval := (hlast e he).2
  rw [lastValue_tasks, hf] at hval
  exact Option.some.inj hval

theorem UrlsAreServers.roundTrip (h : ∀ e ∈ d, RegularRow e) (hu : UrlsAreServers d) :
    RoundTrip d := by
  have hrows := (fileRows_regular h hu.method).mpr ⟨hu.short, rfl⟩
  refine ReadsBack.roundTrip ⟨_, hrows, (allAdmitted_tasks hu.method).mpr hu.room,
    fun e he => ⟨hu.method e he, ?_⟩⟩ fun ops hops => ?_
  · obtain ⟨f, -, hf⟩ := exists_lastTask he
    rw [lastValue_tasks, hf, Option.map_some, hu.last e he f hf]
  · obtain rfl : _ = ops := Except.ok.inj (hrows.symm.trans hops)
    exact noCollision_tasks hu.method

/-- **Round trip through the whitelist file.**  The server lists of regular tasks come back exactly
when they stand in the urls. -/
theorem roundTrip_iff (d : Dictionary) (h : ∀ e ∈ d, RegularRow e) :
    RoundTrip d ↔ UrlsAreServers d :=
  ⟨RoundTrip.urlsAreServers h, UrlsAreServers.roundTrip h⟩

/-- A url that is the number of the only server. -/
def numberTask : Dictionary :=
  [(⟨bytes "GET", bytes "1", bytes "NULL", bytes "None"⟩, [bytes "1"])]

set_option maxRecDepth 8000 in
theorem roundTrip_iff_numberTask : RoundTrip numberTask := by
  refine (roundTrip_iff numberTask fun e he => ?_).mpr ⟨?_, ?_, ?_, ?_⟩
  · obtain rfl := List.mem_singleton.mp he
    exact ⟨by decide, by decide, by decide⟩
  all_goals
    intro e he
    obtain rfl := List.mem_singleton.mp he
  · exact .inl rfl
  · decide
  · rintro f hf
    obtain rfl := Option.some.inj hf
    rfl
  · rintro f hf
    obtain rfl := Option.some.inj hf
    exact Nat.le_refl _

/-- No task survives the trip if the urls start with a slash, which is in no list of servers. -/
theorem not_roundTrip_of_slash (hd : d ≠ []) (h : ∀ e ∈ d, RegularRow e)
    (hurl : ∀ e ∈ d, e.1.url.head? = some 47) (hsrv : ∀ e ∈ d, 47 ∉ serverList e.2) :
    ¬ RoundTrip d := by
  intro hrt
  obtain ⟨e, he⟩ := List.exists_mem_of_ne_nil d hd
  obtain ⟨f, hmem, hf⟩ := exists_lastTask he
  have hslash := hurl f hmem
  have hne : f.1.url ≠ [] := by
    intro hnil
    rw [hnil] at hslash
    cases hslash
  refine hsrv e he ?_
  rw [← (hrt.urlsAreServers h).last e he f hf, readColumn, if_pos hne]
  exact List.mem_of_mem_head? hslash

/-- One task, and the file that smartdrop writes for it. -/
def oneTask : Dictionary :=
  [({ method := bytes "GET", url := bytes "/a", query := bytes "NULL",
      content := bytes "None" }, [bytes "1", bytes "2"])]

/-- The request of the only task finds the url of the task, not its servers. -/
theorem not_roundTrip_oneTask : ¬ RoundTrip oneTask := by
  rintro ⟨wl, hupd, hfind⟩
  obtain ⟨key, hkey, hsearch⟩ := hfind _ (List.mem_singleton.mpr rfl)
  obtain ⟨-, rfl⟩ := fetchKey_eq_some_iff.mp hkey
  have hfound : (updateWhitelist (createWhitelist capacity) (fileWrite oneTask)
      >>= fun wl => searchRequest wl (bytes "GET")) = .ok (some (bytes "/a")) := by decide
  rw [hupd] at hfound
  have hfound' : searchRequest wl (bytes "GET") = .ok (some (bytes "/a")) := hfound
  rw [hfound'] at hsearch
  exact absurd hsearch (by decide)

end SmartHAProxy
