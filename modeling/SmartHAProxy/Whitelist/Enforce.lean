/-
What the whitelist does to the choice of a server.

The routines that dispatch a request look up its whitelist string and consult
it in their search loops.  A request should go to a server of the string as
long as one of them is free.  But all three loops use the string only to
*pardon* a server: one that was to be avoided, or whose load is above the
bound, is taken nevertheless if it is on the whitelist.  A server that is not
on the whitelist is not refused.

So the whitelist is honoured by chance, when the order in which a routine comes
to the servers happens to favour one of the string.  `enforced_iff` is the exact
condition.
-/
import SmartHAProxy.Lb.FwrrOrder
import SmartHAProxy.Lb.Random
import SmartHAProxy.Whitelist.Table

namespace SmartHAProxy

variable {ι : Type*} [DecidableEq ι]

/-! ### Selections -/

/-- A call of a selection routine, with the state of the backend.  The random
number is an argument of `chash_get_server_hash`. -/
inductive Selection (ι : Type*)
  | random (b : Backend ι (Chash ι)) (hash : UInt32)
  | roundrobin (b : Backend ι (Fwrr ι))
  | leastconn (b : Backend ι (LbTrees ι))

namespace Selection

def srv : Selection ι → ι → Server
  | .random b _ => b.srv
  | .roundrobin b => b.srv
  | .leastconn b => b.srv

def groupInUse : Selection ι → Option Bool
  | .random b _ => b.px.groupInUse
  | .roundrobin b => b.px.groupInUse
  | .leastconn b => b.px.groupInUse

def linked : Selection ι → Bool → List ι
  | .random b _, backup => b.px.lb.ring backup
  | .roundrobin b, backup =>
    let g := b.px.lb.grp backup
    g.curr.items ++ g.t0.items ++ g.t1.items
  | .leastconn b, backup => (b.px.lb.tree backup).items

/-- The server is not saturated, by the routine's own test. -/
def unsaturated (now : ℤ) : Selection ι → ι → Bool
  | .random b _, i => hasRoom b.px now (b.srv i)
  | .roundrobin b, i => SmartHAProxy.unsaturated b.px now (b.srv i)
  | .leastconn b, i => fwlcUnsaturated b.px now (b.srv i)

/-- The server that the routine returns for a whitelist string. -/
def returned (now : ℤ) (avoid : Option ι) (servers : CStr) : Selection ι → Option ι
  | .random b hash =>
    if strchr servers '0'.toUInt8 then none else chashGetServerHash b hash avoid servers
  | .roundrobin b => (fwrrGetNextServer now b avoid servers).bind Prod.snd
  | .leastconn b => fwlcGetNextServer now b avoid servers

/-- The whole routine: without a whitelist string, `strchr` meets a NULL pointer. -/
def select (wl : Whitelist) (key : CStr) (now : ℤ) (avoid : Option ι) (sel : Selection ι) :
    Except Fault (Option ι) :=
  match searchRequest wl key with
  | .error fault => .error fault
  | .ok none => .error .nullPointer
  | .ok (some servers) => .ok (sel.returned now avoid servers)

/-- The number of the server occurs in the whitelist string. -/
def Listed (sel : Selection ι) (servers : CStr) (i : ι) : Prop :=
  strchr servers (sel.srv i).srvNum = true

/-- The whitelist is enforced: a server that comes from the tree is listed, if a
listed one of the tree was not saturated. -/
def Enforced (wl : Whitelist) (key servers : CStr) (now : ℤ) (avoid : Option ι)
    (sel : Selection ι) : Prop :=
  ∀ backup r, sel.groupInUse = some backup → sel.select wl key now avoid = .ok (some r) →
    (∃ i ∈ sel.linked backup, sel.unsaturated now i = true ∧ sel.Listed servers i) →
    sel.Listed servers r

/-! ### The exact condition -/

/-- The order in which the routine comes to the servers. -/
def order : Selection ι → Bool → List ι
  | .random b hash, backup => chashOrder b.px.lb backup hash
  | .roundrobin b, backup => fwrrOrder b.srv b.px.lb backup
  | .leastconn b, backup => (b.px.lb.tree backup).items

/-- A listed server comes before all others that would be taken.  For the two
tree searches: only saturated servers and the one to be avoided come before it.
For the ring: only servers that are skipped come before it, or all servers are
skipped and the last node belongs to a listed one. -/
def Favours (now : ℤ) (avoid : Option ι) (servers : CStr) (backup : Bool) (sel : Selection ι) :
    Prop :=
  match sel with
  | .random b _ =>
    LeadsTo (fun i => chashSkips b avoid servers i = false) (sel.Listed servers)
        (sel.order backup) ∨
      (∀ i ∈ sel.order backup, chashSkips b avoid servers i = true) ∧
        ∀ i, (b.px.lb.ring backup).getLast? = some i → sel.Listed servers i
  | _ =>
    (∃ i ∈ sel.order backup, sel.unsaturated now i = true) →
      ∃ pre i post, sel.order backup = pre ++ i :: post ∧ sel.unsaturated now i = true ∧
        sel.Listed servers i ∧ ∀ j ∈ pre, sel.unsaturated now j = true → some j = avoid

/-- The condition: if a listed server of the tree is not saturated, the order
favours a listed one. -/
def Favoured (now : ℤ) (avoid : Option ι) (servers : CStr) (sel : Selection ι) : Prop :=
  ∀ backup, sel.groupInUse = some backup →
    (∃ i ∈ sel.linked backup, sel.unsaturated now i = true ∧ sel.Listed servers i) →
    sel.Favours now avoid servers backup

variable {now : ℤ} {avoid : Option ι} {servers : CStr} {backup : Bool}

omit [DecidableEq ι] in
theorem search_listed_iff {sel : Selection ι} {c : Criteria ι}
    (hfree : ∀ i, c.free i = sel.unsaturated now i)
    (havoid : ∀ i, c.avoid i = true ↔ some i = avoid ∧ ¬ sel.Listed servers i) (xs : List ι) :
    (∀ r, c.search none xs = some r → sel.Listed servers r) ↔
      ((∃ i ∈ xs, sel.unsaturated now i = true) →
        ∃ pre i post, xs = pre ++ i :: post ∧ sel.unsaturated now i = true ∧
          sel.Listed servers i ∧ ∀ j ∈ pre, sel.unsaturated now j = true → some j = avoid) := by
  rw [Criteria.search_good_iff fun i hi => ((havoid i).mp hi).2,
    Criteria.leadsTo_accepts_iff havoid]
  simp only [hfree]

theorem returned_listed_iff (sel : Selection ι) (h0 : strchr servers '0'.toUInt8 = false)
    (hg : sel.groupInUse = some backup) (hne : sel.linked backup ≠ []) :
    (∀ r, sel.returned now avoid servers = some r → sel.Listed servers r) ↔
      sel.Favours now avoid servers backup := by
  cases sel with
  | random b hash =>
    have hne' : b.px.lb.ring backup ≠ [] := hne
    have hret : returned now avoid servers (.random b hash)
        = some (((chashOrder b.px.lb backup hash).find? (!chashSkips b avoid servers ·)).getD
            ((b.px.lb.ring backup).getLast hne')) := by
      simp only [returned, h0, Bool.false_eq_true, if_false]
      exact chashGetServerHash_eq hg hne' hash avoid servers
    rw [hret]
    simp only [Option.some.injEq, forall_eq', find?_getD_good_iff, Favours, order,
      List.getLast?_eq_some_getLast hne', Bool.not_eq_true', Bool.not_eq_false]
  | roundrobin b =>
    obtain ⟨b', hb'⟩ := fwrrGetNextServer_eq now avoid h0 hg
    simp only [returned, hb', Option.bind_some]
    refine search_listed_iff (fun i => rfl) (fun i => ?_) _
    simp [fwrrCriteria, Listed, srv]
  | leastconn b =>
    simp only [returned, fwlcGetNextServer_eq now avoid h0 hg]
    refine search_listed_iff (fun i => rfl) (fun i => ?_) _
    simp [fwlcCriteria, Listed, srv]

/-- **Whitelist enforcement.**  Whatever the state of the backend and the server to
be avoided, a request whose whitelist string has no `0` is dispatched according
to it exactly when the order in which the routine comes to the servers favours
a listed one. -/
theorem enforced_iff {wl : Whitelist} {key : CStr}
    (hw : searchRequest wl key = .ok (some servers)) (h0 : '0'.toUInt8 ∉ servers)
    (now : ℤ) (avoid : Option ι) (sel : Selection ι) :
    sel.Enforced wl key servers now avoid ↔ sel.Favoured now avoid servers := by
  have h0' : strchr servers '0'.toUInt8 = false := by
    rw [Bool.eq_false_iff]
    exact fun h => h0 ((strchr_eq_true (by decide)).mp h)
  have hselect : sel.select wl key now avoid = .ok (sel.returned now avoid servers) := by
    simp only [select, hw]
  constructor
  · intro henf backup hg hex
    have hne : sel.linked backup ≠ [] := by
      obtain ⟨i, hi, -⟩ := hex
      exact List.ne_nil_of_mem hi
    refine (returned_listed_iff sel h0' hg hne).mp fun r hr => henf backup r hg ?_ hex
    rw [hselect, hr]
  · intro hfav backup r hg hr hex
    have hne : sel.linked backup ≠ [] := by
      obtain ⟨i, hi, -⟩ := hex
      exact List.ne_nil_of_mem hi
    rw [hselect] at hr
    exact (returned_listed_iff sel h0' hg hne).mpr (hfav backup hg hex) r (by simpa using hr)

/-! ### Two idle servers -/

/-- Two servers that are up and idle, by least connections. -/
def twoIdle : Backend ℕ (LbTrees ℕ) :=
  fwlcInitServerTree
    { srv := fun i =>
        if i = 1 then newServer (bytes "web-1") (by decide) else newServer (bytes "web-2") (by decide)
      px := newProxy [1, 2] (by decide) }

/-- The table after `insertRequest("GET", servers)`. -/
def getOnly (servers : CStr) : Whitelist where
  requests := (List.replicate capacity none).set 24 (some ⟨bytes "GET", bytes "GET", servers,
    servers.length + 1⟩)
  size := capacity
  count := 1

/-- A request that may go to server 1 only goes there: it is the first one. -/
theorem enforced_iff_firstListed :
    Enforced (getOnly (bytes "1")) (bytes "GET") (bytes "1") 0 none (.leastconn twoIdle) := by
  refine (enforced_iff (by rfl) (by decide) 0 none (.leastconn twoIdle)).mpr ?_
  intro backup hg _ _
  have hb : twoIdle.px.groupInUse = some backup := hg
  obtain rfl : false = backup := Option.some.inj (Eq.trans (by decide) hb)
  exact ⟨[], 1, [2], by decide, by decide, (by decide : strchr _ _ = true), by simp⟩

/-- A request that may go to server 2 only goes to server 1 although server 2 is
idle. -/
theorem not_enforced_secondListed :
    insertRequest (createWhitelist capacity) (bytes "GET") (bytes "2") = .ok (getOnly (bytes "2")) ∧
      searchRequest (getOnly (bytes "2")) (bytes "GET") = .ok (some (bytes "2")) ∧
      ¬ Enforced (getOnly (bytes "2")) (bytes "GET") (bytes "2") 0 none (.leastconn twoIdle) := by
  refine ⟨by rfl, by rfl, fun h => ?_⟩
  have hlisted : strchr (bytes "2") (twoIdle.srv 1).srvNum = true :=
    h false 1 (by decide) (by rfl) ⟨2, by decide, by decide, (by decide : strchr _ _ = true)⟩
  exact absurd hlisted (by decide)

end Selection

end SmartHAProxy
