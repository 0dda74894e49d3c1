/-
The choice of a server for a stream (`assign_server` in backend.c).

The first thing `assign_server` does is to fetch the whitelist key of the
stream, which is the name of the request method.  Three of the balancing
routines then look the key up in the whitelist and search the result for a
`0`.  None of these steps tests its argument: `fetchMethod` reads the HTTP
transaction of a stream that may have none, it gives NULL for all methods but
GET and POST, and `searchRequest` gives NULL for a key that has no entry.

The three routines may update the whitelist before they look the key up (see
`Whitelist/Refresh.lean`): `wl` is the table that is read, after the update.
`assignServer_safe_iff` says exactly when no NULL pointer is read.

The stream's old connection slot has been released already in the backend that
is given here.  The routines that never look at the whitelist are parameters
(`Lookups`).
-/
import SmartHAProxy.Lb.Map
import SmartHAProxy.Whitelist.Enforce
import SmartHAProxy.Whitelist.File

namespace SmartHAProxy

/-! ### Streams -/

/-- What is read of a `struct http_txn`. -/
structure HttpTxn where
  meth : HttpMeth
  deriving DecidableEq, Repr

/-- A server the session has connections to.  For each connection: it still has
`CO_FL_WAIT_XPRT`. -/
structure SessSrvList (ι : Type*) where
  target : Option ι
  /-- `tmpsrv->proxy == s->be` -/
  ofBackend : Bool
  waitXprt : List Bool

/-- What `assign_server` reads of a `struct stream`.  A TCP stream has no
transaction. -/
structure Stream (ι : Type*) where
  pendPos : Bool
  /-- `flags & SF_ASSIGNED` -/
  assigned : Bool
  target : Option ι
  txn : Option HttpTxn
  /-- `sess->flags & SESS_FL_PREFER_LAST` -/
  preferLast : Bool
  srvList : List (SessSrvList ι)

/-- `SRV_STATUS_*`. -/
inductive SrvStatus
  | ok
  | internal
  | nosrv
  | full
  deriving DecidableEq, Repr

/-! ### Algorithms -/

/-- What a hash algorithm makes of the request. -/
inductive HashInput
  /-- the source address is neither IPv4 nor IPv6 -/
  | unknownFamily
  /-- the parameter to be hashed is not there -/
  | missing
  | hash (h : UInt32)
  deriving DecidableEq, Repr

/-- `lbprm.algo` with the state of the algorithm.  The configuration parser
chooses `BE_LB_LKUP` by the rest of the algorithm, so that no other
combinations exist. -/
inductive Lbprm (ι : Type*)
  | none
  | roundrobin (lb : Fwrr ι)
  | staticRr (lb : LbMap ι)
  | random (lb : Chash ι) (draws : ℕ) (prng : UInt32)
  | leastconn (lb : LbTrees ι)
  | first (lb : LbTrees ι)
  | hashMap (lb : LbMap ι) (input : HashInput)
  | hashConsistent (lb : Chash ι) (input : HashInput)

namespace Lbprm

variable {ι : Type*}

/-- `BE_LB_ALGO_FAS`, `BE_LB_ALGO_RR` or `BE_LB_ALGO_SRR`: "if there's some queue
on the backend, with certain algos we know it's because all servers are full". -/
def queuesWhenFull : Lbprm ι → Bool
  | .roundrobin _ | .staticRr _ | .first _ => true
  | _ => false

/-- `BE_LB_KIND_NONE`. -/
def isNone : Lbprm ι → Bool
  | .none => true
  | _ => false

/-- `BE_LB_KIND_HI`. -/
def hashes : Lbprm ι → Bool
  | .hashMap .. | .hashConsistent .. => true
  | _ => false

/-- The three algorithms that consult the whitelist. -/
def consultsWhitelist : Lbprm ι → Bool
  | .roundrobin _ | .leastconn _ | .random .. => true
  | _ => false

end Lbprm

/-- A backend with the fields of its proxy that only `assign_server` reads. -/
structure Be (ι : Type*) extends Backend ι (Lbprm ι) where
  /-- `options & PR_O_PREF_LAST` -/
  prefLast : Bool
  /-- `options & (PR_O_DISPATCH | PR_O_TRANSP)` -/
  dispatch : Bool
  maxKaQueue : UInt32
  /-- `queue.length` -/
  queueLength : UInt32
  curSess : ι → UInt32

/-- The routines that are called without the key: `map_get_server_rr`,
`fas_get_next_server`, `map_get_server_hash` and `chash_get_next_server`. -/
structure Lookups (ι : Type*) where
  mapGetServerRr : Backend ι (LbMap ι) → Option ι → Option ι
  fasGetNextServer : Backend ι (LbTrees ι) → Option ι → Option ι
  mapGetServerHash : Backend ι (LbMap ι) → UInt32 → Option ι
  chashGetNextServer : Backend ι (Chash ι) → Option ι → Option ι

variable {ι : Type*}
variable {key : Option CStr}

/-! ### The whitelist key -/

/-- `fetchMethod`, on a stream that may have no transaction. -/
def Stream.fetchMethod (s : Stream ι) : Except Fault (Option CStr) :=
  match s.txn with
  | none => .error .nullPointer
  | some txn => .ok (SmartHAProxy.fetchMethod txn.meth)

/-- `fetchKey`: "just use method as key". -/
def Stream.fetchKey (s : Stream ι) : Except Fault (Option CStr) := s.fetchMethod

/-- The steps from `searchRequest(key)` to `strchr(servers, '0')`, the same in all
three routines.  `hashRequest` reads the first byte of the key whatever the
key is. -/
def requestServers (wl : Whitelist) (key : Option CStr) : Except Fault CStr :=
  match key with
  | none => .error .nullPointer
  | some key =>
    match searchRequest wl key with
    | .error fault => .error fault
    | .ok none => .error .nullPointer
    | .ok (some servers) => .ok servers

/-! ### `assign_server` -/

/-- The end of the selection: no server means that all are full. -/
def chosen : Option ι → SrvStatus × Option ι
  | some srv => (.ok, some srv)
  | none => (.full, none)

/-- The list of connections that the session may reuse is searched for one to a
usable server of this backend. -/
def reusableServer (now : ℤ) (be : Be ι) (s : Stream ι) : Option ι :=
  if be.px.lb.hashes = false ∧ (s.preferLast || be.prefLast) then
    s.srvList.findSome? fun l =>
      match l.target with
      | none => none
      | some tmpsrv =>
        let srv := be.srv tmpsrv
        let hasRoom := srv.maxconn = 0 ∨
          be.curSess tmpsrv < srvDynamicMaxconn be.px now srv
        if l.ofBackend ∧
            (s.preferLast ∨ be.maxKaQueue = 0 ∨ hasRoom ∨
              srv.queueLength + 1 < be.maxKaQueue) ∧
            srv.currentlyUsable ∧ l.waitXprt.any (!·)
        then some tmpsrv else none
  else none

/-- The string that the hash algorithms pass on in place of a whitelist. -/
def allServers : CStr := bytes "1234567"

variable [DecidableEq ι]

/-- The `switch` over `BE_LB_LKUP`. -/
def lookupServer (wl : Whitelist) (now : ℤ) (lk : Lookups ι) (be : Be ι) (prev : Option ι)
    (key : Option CStr) : Except Fault (SrvStatus × Option ι) :=
  match be.px.lb with
  | .none => .ok (.internal, none)
  | .roundrobin lb =>
    (requestServers wl key).map fun servers =>
      chosen ((fwrrGetNextServer now (be.setLb lb) prev servers).bind Prod.snd)
  | .first lb => .ok (chosen (lk.fasGetNextServer (be.setLb lb) prev))
  | .leastconn lb =>
    (requestServers wl key).map fun servers =>
      chosen (fwlcGetNextServer now (be.setLb lb) prev servers)
  | .random lb draws prng =>
    if be.px.totWeight = 0 then .ok (.full, none)
    else (requestServers wl key).map fun servers =>
      chosen (getServerRnd now (be.setLb lb) draws prng prev servers)
  | .staticRr lb => .ok (chosen (lk.mapGetServerRr (be.setLb lb) prev))
  | .hashMap lb input =>
    let fallback := lk.mapGetServerRr (be.setLb lb) prev
    match input with
    | .unknownFamily => .ok (.internal, none)
    | .missing => .ok (chosen fallback)
    | .hash h => .ok (chosen ((lk.mapGetServerHash (be.setLb lb) h).or fallback))
  | .hashConsistent lb input =>
    let fallback := lk.chashGetNextServer (be.setLb lb) prev
    match input with
    | .unknownFamily => .ok (.internal, none)
    | .missing => .ok (chosen fallback)
    | .hash h => .ok (chosen ((chashGetServerHash (be.setLb lb) h prev allServers).or fallback))

/-- The queue of the backend says that all servers are full. -/
def Be.saysFull (be : Be ι) : Bool :=
  be.queueLength ≠ 0 && be.queueLength ≠ be.px.beconn && be.px.lb.queuesWhenFull

/-- `assign_server`: the status and the server that the stream is assigned to.  A
dispatch or transparent proxy assigns no server. -/
def assignServer (wl : Whitelist) (now : ℤ) (lk : Lookups ι) (be : Be ι) (s : Stream ι) :
    Except Fault (SrvStatus × Option ι) :=
  match s.fetchKey with
  | .error fault => .error fault
  | .ok key =>
    if s.pendPos || s.assigned then .ok (.internal, s.target)
    else match reusableServer now be s with
      | some srv => .ok (.ok, some srv)
      | none =>
        if be.px.lb.isNone then
          if be.dispatch then .ok (.ok, none) else .ok (.nosrv, none)
        else if be.px.totWeight = 0 then .ok (.nosrv, none)
        else if be.saysFull then .ok (.full, none)
        else lookupServer wl now lk be s.target key

/-! ### The exact condition -/

def Whitelist.Has (wl : Whitelist) (key : CStr) : Prop :=
  ∃ r, wl.requests[(hashRequest key).toNat]? = some (some r) ∧ r.key = key

/-- The table has an entry for the method, which is GET or POST. -/
def Whitelist.Lists (wl : Whitelist) (meth : HttpMeth) : Prop :=
  meth = .get ∧ wl.Has (bytes "GET") ∨ meth = .post ∧ wl.Has (bytes "POST")

/-- The stream comes to one of the three routines: it is neither queued nor
assigned, no connection of the session is reused, the backend has weight, and
its queue does not say that all servers are full. -/
def ComesToWhitelist (now : ℤ) (be : Be ι) (s : Stream ι) : Prop :=
  s.pendPos = false ∧ s.assigned = false ∧ reusableServer now be s = none ∧
    be.px.totWeight ≠ 0 ∧ be.saysFull = false ∧ be.px.lb.consultsWhitelist = true

variable {wl : Whitelist} {now : ℤ} {lk : Lookups ι} {be : Be ι} {s : Stream ι}

omit [DecidableEq ι] in
theorem requestServers_safe_iff {key : CStr} (hwl : wl.requests.length = capacity)
    (hkey : 0 ≤ hashRequest key) (hlt : hashRequest key < capacity) :
    requestServers wl (some key) ≠ .error .nullPointer ↔ wl.Has key := by
  obtain ⟨n, hn⟩ := Int.eq_ofNat_of_zero_le hkey
  have hslot : n < wl.requests.length := by omega
  simp only [requestServers, searchRequest, Whitelist.Has, hn, Int.toNat_natCast]
  have hat : wl.at (n : ℤ) = .ok wl.requests[n] := by
    simp [Whitelist.at, hslot]
  rw [hat, List.getElem?_eq_getElem hslot]
  rcases hr : wl.requests[n] with - | r
  · simp [bind, Except.bind, pure, Except.pure]
  · by_cases hk : r.key = key <;> simp [bind, Except.bind, pure, Except.pure, hk]

omit [DecidableEq ι] in
theorem map_eq_error_iff {ε α β : Type*} {x : Except ε α} {f : α → β} {e : ε} :
    x.map f = .error e ↔ x = .error e := by
  cases x <;> simp [Except.map]

theorem lookupServer_safe_iff {prev : Option ι} (hw : be.px.totWeight ≠ 0) :
    lookupServer wl now lk be prev key ≠ .error .nullPointer ↔
      (be.px.lb.consultsWhitelist = true → requestServers wl key ≠ .error .nullPointer) := by
  simp only [lookupServer, ne_eq, hw, if_false]
  cases be.px.lb with
  | none | first | staticRr => simp [Lbprm.consultsWhitelist]
  | roundrobin | leastconn | random => simp [Lbprm.consultsWhitelist, map_eq_error_iff]
  | hashMap lb input | hashConsistent lb input =>
    cases input <;> simp [Lbprm.consultsWhitelist]

omit [DecidableEq ι] in
theorem ComesToWhitelist.not_isNone (h : ComesToWhitelist now be s) : be.px.lb.isNone = false := by
  obtain ⟨-, -, -, -, -, hcons⟩ := h
  rcases hlb : be.px.lb with - | - <;> simp_all [Lbprm.isNone, Lbprm.consultsWhitelist]

theorem assignServer_of_comes (hkey : s.fetchKey = .ok key) (h : ComesToWhitelist now be s) :
    assignServer wl now lk be s = lookupServer wl now lk be s.target key := by
  have hnone := h.not_isNone
  obtain ⟨hpend, hass, hre, hw, hfull, -⟩ := h
  simp [assignServer, hkey, hpend, hass, hre, hnone, hw, hfull]

theorem assignServer_of_not_comes (hkey : s.fetchKey = .ok key) (h : ¬ ComesToWhitelist now be s) :
    assignServer wl now lk be s ≠ .error .nullPointer := by
  rcases hre : reusableServer now be s with - | srv
  · simp only [assignServer, hkey, hre]
    split_ifs with hskip hnone hdisp hw hfull
    · simp
    · simp
    · simp
    · simp
    · simp
    · rw [lookupServer_safe_iff hw]
      intro hcons
      simp only [Bool.or_eq_true, not_or, Bool.not_eq_true] at hskip hfull
      exact absurd ⟨hskip.1, hskip.2, hre, hw, hfull, hcons⟩ h
  · simp only [assignServer, hkey, hre]
    split_ifs <;> simp

theorem assignServer_safe_of_key (hkey : s.fetchKey = .ok key) :
    assignServer wl now lk be s ≠ .error .nullPointer ↔
      (ComesToWhitelist now be s → requestServers wl key ≠ .error .nullPointer) := by
  by_cases h : ComesToWhitelist now be s
  · have hw : be.px.totWeight ≠ 0 := h.2.2.2.1
    have hcons : be.px.lb.consultsWhitelist = true := h.2.2.2.2.2
    rw [assignServer_of_comes hkey h, lookupServer_safe_iff hw]
    simp [h, hcons]
  · simpa [h] using assignServer_of_not_comes hkey h

/-- **No missing request is read.**  Whatever the backend, its algorithm and the
content of the whitelist, the steps of the whitelist are applied to no NULL
pointer exactly when the stream has a transaction and, if it comes to one of
the three routines, the whitelist has an entry for its method. -/
theorem assignServer_safe_iff (hwl : wl.requests.length = capacity) (now : ℤ) (lk : Lookups ι)
    (be : Be ι) (s : Stream ι) :
    assignServer wl now lk be s ≠ .error .nullPointer ↔
      ∃ txn, s.txn = some txn ∧ (ComesToWhitelist now be s → wl.Lists txn.meth) := by
  rcases htxn : s.txn with - | ⟨⟨meth⟩⟩
  · simp [assignServer, Stream.fetchKey, Stream.fetchMethod, htxn]
  have hget : requestServers wl (some (bytes "GET")) ≠ .error .nullPointer ↔ wl.Has (bytes "GET") :=
    requestServers_safe_iff hwl (by decide) (by decide)
  have hpost :
      requestServers wl (some (bytes "POST")) ≠ .error .nullPointer ↔ wl.Has (bytes "POST") :=
    requestServers_safe_iff hwl (by decide) (by decide)
  -- the three outcomes of `fetchMethod`
  cases meth with
  | get =>
    have hkey : s.fetchKey = .ok (some (bytes "GET")) := by
      simp [Stream.fetchKey, Stream.fetchMethod, SmartHAProxy.fetchMethod, htxn]
    rw [assignServer_safe_of_key hkey, hget]
    simp [Whitelist.Lists]
  | post =>
    have hkey : s.fetchKey = .ok (some (bytes "POST")) := by
      simp [Stream.fetchKey, Stream.fetchMethod, SmartHAProxy.fetchMethod, htxn]
    rw [assignServer_safe_of_key hkey, hpost]
    simp [Whitelist.Lists]
  | _ =>
    have hkey : s.fetchKey = .ok none := by
      simp [Stream.fetchKey, Stream.fetchMethod, SmartHAProxy.fetchMethod, htxn]
    rw [assignServer_safe_of_key hkey]
    simp [Whitelist.Lists, requestServers]

/-- An idle backend of two servers, by least connections. -/
def idleBe : Be ℕ where
  toBackend := Selection.twoIdle.setLb (.leastconn Selection.twoIdle.px.lb)
  prefLast := false
  dispatch := false
  maxKaQueue := 0
  queueLength := 0
  curSess := fun _ => 0

def newStream (txn : Option HttpTxn) : Stream ℕ where
  pendPos := false
  assigned := false
  target := none
  txn := txn
  preferLast := false
  srvList := []

def noLookups : Lookups ℕ where
  mapGetServerRr := fun _ _ => none
  fasGetNextServer := fun _ _ => none
  mapGetServerHash := fun _ _ => none
  chashGetNextServer := fun _ _ => none

/-- A GET request is safe if the whitelist has an entry for GET. -/
theorem assignServer_safe_iff_get :
    assignServer (Selection.getOnly (bytes "1")) 0 noLookups idleBe (newStream (some ⟨.get⟩))
      ≠ .error .nullPointer := by
  refine (assignServer_safe_iff (by decide) 0 noLookups idleBe _).mpr ⟨_, rfl, fun _ => .inl ?_⟩
  exact ⟨rfl, ⟨bytes "GET", bytes "GET", bytes "1", 2⟩, by decide, rfl⟩

/-- A stream of a TCP proxy, a PUT request, and a POST request that the whitelist
does not list. -/
theorem not_assignServer_safe :
    let wl := Selection.getOnly (bytes "1")
    assignServer wl 0 noLookups idleBe (newStream none) = .error .nullPointer ∧
      assignServer wl 0 noLookups idleBe (newStream (some ⟨.put⟩)) = .error .nullPointer ∧
      assignServer wl 0 noLookups idleBe (newStream (some ⟨.post⟩)) = .error .nullPointer := by
  refine ⟨by rfl, by rfl, by rfl⟩

end SmartHAProxy
