/-
Random balancing (`get_server_rnd` in backend.c) on the ring of lb_chash.c.

A random number is drawn and the server closest to it on the ring is taken;
from there the ring is followed while the server is to be avoided or not
eligible, and not on the whitelist either.  With several draws the server with
the least load for its weight is kept.

Main result: `getServerRnd_least`.
-/
import SmartHAProxy.Lb.Chash
import SmartHAProxy.Lib.Search

namespace SmartHAProxy

variable {ι L : Type*}

/-! ### `chash_get_server_hash` -/

/-- `chash_server_is_eligible`.  `tot_weight` is not zero where it is called.  The first product
is exact here; an `int` overflows from 2^31 on, with 2^31 / `hash_balance_factor` requests. -/
def chashServerIsEligible (px : Proxy ι L) (s : Server) : Bool :=
  let totSlots := UInt32.ofInt (((px.served + 1) * px.hashBalanceFactor + 99).tdiv 100)
  let slotsPerWeight := totSlots / px.totWeight
  let remainder := totSlots % px.totWeight
  let slots := s.curEweight * slotsPerWeight +
    ((s.cumulativeWeight + s.curEweight) * remainder / px.totWeight -
      s.cumulativeWeight * remainder / px.totWeight)
  let slots := if slots = 0 then 1 else slots
  s.served < slots

/-- The index of the node closest to `hash`: the one after it or the one before
it, the ring being closed. -/
def chashClosest (nodes : List (UInt32 × ι)) (hash : UInt32) : ℕ :=
  let key (n : ℕ) := (nodes[n]?.map Prod.fst).getD 0
  let next := (nodes.findIdx? (hash ≤ ·.1)).getD 0
  let prev := if next = 0 then nodes.length - 1 else next - 1
  if hash - key prev ≤ key next - hash then prev else next

/-- The loop, from the server `nsrv` over the nodes behind it; `wrap` is what
happens at the end of the ring. -/
def chashFollow (skip : ι → Bool) (wrap : ι → ι) : ι → List ι → ι
  | nsrv, [] => if skip nsrv then wrap nsrv else nsrv
  | nsrv, next :: rest => if skip nsrv then chashFollow skip wrap next rest else nsrv

/-- The ring is followed from its node number `start` to its end, and once more
from the beginning.  At the second end the search is given up where it is. -/
def chashWalk (skip : ι → Bool) (ring : List ι) (start : ℕ) : Option ι :=
  match ring, ring.drop start with
  | first :: others, nsrv :: rest =>
    some (chashFollow skip (fun _ => chashFollow skip id first others) nsrv rest)
  | _, _ => none

variable [DecidableEq ι]

/-- The condition of the loop. -/
def chashSkips (b : Backend ι L) (avoid : Option ι) (whitelist : CStr) (i : ι) : Bool :=
  (some i = avoid || (b.px.hashBalanceFactor ≠ 0 && !chashServerIsEligible b.px (b.srv i))) &&
    !(b.srv i).onWhitelist whitelist

/-- The servers of a ring, a server as often as it has nodes. -/
def Chash.ring (c : Chash ι) (backup : Bool) : List ι := (c.tree backup).items.map Prod.fst

def chashGetServerHash (b : Backend ι (Chash ι)) (hash : UInt32) (avoid : Option ι)
    (whitelist : CStr) : Option ι :=
  let pick (backup : Bool) :=
    chashWalk (chashSkips b avoid whitelist) (b.px.lb.ring backup)
      (chashClosest (b.px.lb.tree backup).nodes hash)
  if b.px.srvAct ≠ 0 then pick false
  else if b.px.fbck.isSome then b.px.fbck
  else if b.px.srvBck ≠ 0 then pick true
  else none

/-! ### `get_server_rnd` -/

def statisticalPrng (x : UInt32) : UInt32 :=
  let x := x ^^^ (x <<< 13)
  let x := x ^^^ (x >>> 17)
  x ^^^ (x <<< 5)

/-- The server that is kept of two draws: `prev`, unless `curr` serves no more for
its weight. -/
def lessLoaded (srv : ι → Server) (prev : Option ι) (curr : ι) : ι :=
  match prev with
  | some prev =>
    if prev ≠ curr ∧
        (srv curr).served * (srv prev).curEweight > (srv prev).served * (srv curr).curEweight
    then prev else curr
  | none => curr

/-- The loop over the draws, at least one.  `prng` is the state of the generator. -/
def getServerRndDraws (b : Backend ι (Chash ι)) (avoid : Option ι) (servers : CStr) :
    ℕ → UInt32 → Option ι → Option ι
  | draws, prng, prev =>
    let hash := statisticalPrng prng
    match chashGetServerHash b hash avoid servers with
    | none => none
    | some curr =>
      let curr := lessLoaded b.srv prev curr
      match draws with
      | draws + 2 => getServerRndDraws b avoid servers (draws + 1) hash (some curr)
      | _ => some curr

/-- The negation of the last test of `get_server_rnd`: the server takes a request
without queueing it. -/
def hasRoom (px : Proxy ι L) (now : ℤ) (s : Server) : Bool :=
  s.queueLength = 0 && (s.maxconn = 0 || s.served < srvDynamicMaxconn px now s)

/-- `get_server_rnd` at date `now`, once the whitelist string of the request has
been looked up; `draws` is `lbprm.arg_opt1`. -/
def getServerRnd (now : ℤ) (b : Backend ι (Chash ι)) (draws : ℕ) (prng : UInt32)
    (avoid : Option ι) (servers : CStr) : Option ι :=
  if b.px.totWeight = 0 then none
  else if strchr servers '0'.toUInt8 then none
  else match getServerRndDraws b avoid servers draws prng none with
    | some curr => if hasRoom b.px now (b.srv curr) then some curr else none
    | none => none

/-! ### Where the walk ends -/

omit [DecidableEq ι] in
theorem chashFollow_eq (skip : ι → Bool) (wrap : ι → ι) (nsrv : ι) (rest : List ι) :
    chashFollow skip wrap nsrv rest
      = ((nsrv :: rest).find? (!skip ·)).getD
          (wrap ((nsrv :: rest).getLast (List.cons_ne_nil nsrv rest))) := by
  induction rest generalizing nsrv with
  | nil => rcases h : skip nsrv with - | - <;> simp [chashFollow, h]
  | cons next rest ih =>
    rcases h : skip nsrv with - | -
    · simp [chashFollow, h]
    · have hfind : (nsrv :: next :: rest).find? (!skip ·) = (next :: rest).find? (!skip ·) :=
        List.find?_cons_of_neg (by simp [h])
      rw [chashFollow, if_pos h, ih, hfind, List.getLast_cons (List.cons_ne_nil next rest)]

omit [DecidableEq ι] in
theorem chashWalk_eq {skip : ι → Bool} {ring : List ι} {start : ℕ} (hne : ring ≠ [])
    (hstart : start < ring.length) :
    chashWalk skip ring start
      = some (((ring.drop start ++ ring).find? (!skip ·)).getD (ring.getLast hne)) := by
  obtain ⟨first, others, rfl⟩ := List.exists_cons_of_ne_nil hne
  rcases hdrop : (first :: others).drop start with - | ⟨nsrv, rest⟩
  · have := List.drop_eq_nil_iff.mp hdrop
    omega
  simp only [chashWalk, hdrop, chashFollow_eq, List.find?_append]
  rcases (nsrv :: rest).find? (!skip ·) with - | i
  · simp
  · simp

omit [DecidableEq ι] in
theorem chashClosest_lt {nodes : List (UInt32 × ι)} (hash : UInt32) (hne : nodes ≠ []) :
    chashClosest nodes hash < nodes.length := by
  have hpos := List.length_pos_iff.mpr hne
  have hnext : ∀ p, (nodes.findIdx? p).getD 0 < nodes.length := by
    intro p
    rcases h : nodes.findIdx? p with - | n
    · exact hpos
    · exact (List.findIdx?_eq_some_iff_findIdx_eq.mp h).1
  simp only [chashClosest]
  split_ifs
  · omega
  · exact hnext _
  · exact (Nat.sub_le _ _).trans_lt (hnext _)
  · exact hnext _

/-- The nodes in the order in which they are visited. -/
def chashOrder (c : Chash ι) (backup : Bool) (hash : UInt32) : List ι :=
  (c.ring backup).drop (chashClosest (c.tree backup).nodes hash) ++ c.ring backup

theorem chashGetServerHash_eq {b : Backend ι (Chash ι)} {backup : Bool}
    (hg : b.px.groupInUse = some backup) (hne : b.px.lb.ring backup ≠ [])
    (hash : UInt32) (avoid : Option ι) (whitelist : CStr) :
    chashGetServerHash b hash avoid whitelist
      = some (((chashOrder b.px.lb backup hash).find? (!chashSkips b avoid whitelist ·)).getD
          ((b.px.lb.ring backup).getLast hne)) := by
  have hlen : (b.px.lb.ring backup).length = (b.px.lb.tree backup).nodes.length := by
    simp [Chash.ring, EbTree.items]
  have hnodes : (b.px.lb.tree backup).nodes ≠ [] := by
    rw [← List.length_pos_iff, ← hlen, List.length_pos_iff]
    exact hne
  have hstart : chashClosest (b.px.lb.tree backup).nodes hash < (b.px.lb.ring backup).length :=
    hlen ▸ chashClosest_lt hash hnodes
  have hpick : chashGetServerHash b hash avoid whitelist
      = chashWalk (chashSkips b avoid whitelist) (b.px.lb.ring backup)
          (chashClosest (b.px.lb.tree backup).nodes hash) := by
    simp only [Proxy.groupInUse] at hg
    simp only [chashGetServerHash]
    split_ifs at hg with hact hfbck hbck
    · rw [if_pos hact, Option.some.inj hg]
    · rw [if_neg hact, if_neg hfbck, if_pos hbck, Option.some.inj hg]
  rw [hpick, chashWalk_eq hne hstart, chashOrder]

/-! ### What `get_server_rnd` returns -/

/-- Draw number `n` from the state `prng` of the generator. -/
def rndDraw (b : Backend ι (Chash ι)) (avoid : Option ι) (servers : CStr) (prng : UInt32) (n : ℕ) :
    Option ι :=
  chashGetServerHash b (statisticalPrng^[n + 1] prng) avoid servers

/-- The server `i` serves no more than `j` for its weight. -/
def LoadLe (srv : ι → Server) (i j : ι) : Prop :=
  (srv i).served.toNat * (srv j).curEweight.toNat ≤
    (srv j).served.toNat * (srv i).curEweight.toNat

/-- Servers that have a weight and whose loads are compared without overflow. -/
structure LoadsCompared (srv : ι → Server) (s : Set ι) : Prop where
  weight : ∀ i ∈ s, 0 < (srv i).curEweight.toNat
  fits : ∀ i ∈ s, ∀ j ∈ s, (srv i).served.toNat * (srv j).curEweight.toNat < 2 ^ 32

variable {srv : ι → Server} {s : Set ι} {i j k : ι}

omit [DecidableEq ι] in
theorem LoadsCompared.trans (h : LoadsCompared srv s) (hj : j ∈ s) (hij : LoadLe srv i j)
    (hjk : LoadLe srv j k) : LoadLe srv i k := by
  refine Nat.le_of_mul_le_mul_left ?_ (h.weight j hj)
  calc (srv j).curEweight.toNat * ((srv i).served.toNat * (srv k).curEweight.toNat)
      = (srv i).served.toNat * (srv j).curEweight.toNat * (srv k).curEweight.toNat := by ac_rfl
    _ ≤ (srv j).served.toNat * (srv i).curEweight.toNat * (srv k).curEweight.toNat :=
        Nat.mul_le_mul_right _ hij
    _ = (srv j).served.toNat * (srv k).curEweight.toNat * (srv i).curEweight.toNat := by ac_rfl
    _ ≤ (srv k).served.toNat * (srv j).curEweight.toNat * (srv i).curEweight.toNat :=
        Nat.mul_le_mul_right _ hjk
    _ = (srv j).curEweight.toNat * ((srv k).served.toNat * (srv i).curEweight.toNat) := by ac_rfl

/-- The server that is kept serves no more than both. -/
theorem LoadsCompared.kept (h : LoadsCompared srv s) (hi : i ∈ s) (hj : j ∈ s) :
    (lessLoaded srv (some i) j = i ∨ lessLoaded srv (some i) j = j) ∧
      LoadLe srv (lessLoaded srv (some i) j) i ∧ LoadLe srv (lessLoaded srv (some i) j) j := by
  have hmul : ∀ {x y}, x ∈ s → y ∈ s → ((srv x).served * (srv y).curEweight).toNat =
      (srv x).served.toNat * (srv y).curEweight.toNat := fun hx hy =>
    (UInt32.toNat_mul _ _).trans (Nat.mod_eq_of_lt (h.fits _ hx _ hy))
  rw [lessLoaded]
  split_ifs with hlt
  · have hle := hlt.2
    rw [gt_iff_lt, UInt32.lt_iff_toNat_lt, hmul hi hj, hmul hj hi] at hle
    exact ⟨.inl rfl, Nat.le_refl _, hle.le⟩
  · refine ⟨.inr rfl, ?_, Nat.le_refl _⟩
    by_cases hij : i = j
    · subst hij
      exact Nat.le_refl _
    · have hle := not_lt.mp fun hgt => hlt ⟨hij, hgt⟩
      rw [UInt32.le_iff_toNat_le, hmul hi hj, hmul hj hi] at hle
      exact hle

variable {b : Backend ι (Chash ι)} {avoid : Option ι} {servers : CStr}

/-- The servers that may be drawn. -/
def rndServers (b : Backend ι (Chash ι)) (avoid : Option ι) (servers : CStr) : Set ι :=
  { i | ∃ hash, chashGetServerHash b hash avoid servers = some i }

/-- What is kept of draws, where `prev` is there before. -/
def rndKeep (srv : ι → Server) (prev : Option ι) (js : List ι) : Option ι :=
  js.foldl (fun p j => some (lessLoaded srv p j)) prev

theorem getServerRndDraws_eq {draws : ℕ} {prng : UInt32} {prev : Option ι}
    (h : getServerRndDraws b avoid servers draws prng prev = some i) :
    ∃ js : List ι, js.length = max 1 draws ∧ rndKeep b.srv prev js = some i ∧
      ∀ n < js.length, rndDraw b avoid servers prng n = js[n]? := by
  induction draws generalizing prng prev with
  | zero =>
    -- the first draw is made before the test
    rw [getServerRndDraws] at h
    split at h
    · cases h
    · rename_i curr hcurr
      refine ⟨[curr], rfl, h, fun n hn => ?_⟩
      obtain rfl := Nat.lt_one_iff.mp hn
      exact hcurr
  | succ draws ih =>
    rw [getServerRndDraws] at h
    split at h
    · cases h
    · rename_i curr hcurr
      rcases draws with - | draws
      · refine ⟨[curr], rfl, h, fun n hn => ?_⟩
        obtain rfl := Nat.lt_one_iff.mp hn
        exact hcurr
      · obtain ⟨js, hlen, hkeep, hdraw⟩ := ih h
        refine ⟨curr :: js, by simp only [List.length_cons]; omega, hkeep, fun n hn => ?_⟩
        rcases n with - | n
        · exact hcurr
        · exact hdraw n (Nat.lt_of_succ_lt_succ hn)

/-- **What is kept** serves no more than any draw. -/
theorem LoadsCompared.keep (h : LoadsCompared srv s) {js : List ι} (hjs : ∀ j ∈ js, j ∈ s)
    {p : ι} (hp : p ∈ s) : ∃ i ∈ s, rndKeep srv (some p) js = some i ∧ (i = p ∨ i ∈ js) ∧
      LoadLe srv i p ∧ ∀ j ∈ js, LoadLe srv i j := by
  induction js generalizing p with
  | nil => exact ⟨p, hp, rfl, .inl rfl, Nat.le_refl _, fun j hj => absurd hj List.not_mem_nil⟩
  | cons j js ih =>
    have hj := hjs j List.mem_cons_self
    obtain ⟨hone, hlep, hlej⟩ := h.kept hp hj
    rw [rndKeep, List.foldl_cons]
    generalize lessLoaded srv (some p) j = k at hone hlep hlej ⊢
    have hk : k ∈ s := by
      rcases hone with rfl | rfl
      · exact hp
      · exact hj
    obtain ⟨i, hi, hkeep, hmem, hle, hall⟩ :=
      ih (fun x hx => hjs x (List.mem_cons_of_mem _ hx)) hk
    refine ⟨i, hi, hkeep, ?_, h.trans hk hle hlep,
      List.forall_mem_cons.mpr ⟨h.trans hk hle hlej, hall⟩⟩
    rcases hmem with rfl | hmem
    · exact hone.imp id fun heq => List.mem_cons.mpr (.inl heq)
    · exact .inr (List.mem_cons_of_mem _ hmem)

/-- `get_server_rnd` returns the server of one of its draws, which has room, and none of the draws
serves less for its weight. -/
theorem getServerRnd_least (now : ℤ) (draws : ℕ) (prng : UInt32)
    (h : LoadsCompared b.srv (rndServers b avoid servers))
    (hi : getServerRnd now b draws prng avoid servers = some i) :
    hasRoom b.px now (b.srv i) = true ∧
      (∃ n < max 1 draws, rndDraw b avoid servers prng n = some i) ∧
      ∀ n < max 1 draws, ∃ j, rndDraw b avoid servers prng n = some j ∧ LoadLe b.srv i j := by
  simp only [getServerRnd] at hi
  split_ifs at hi
  split at hi
  swap
  · cases hi
  · rename_i curr hcurr
    split_ifs at hi with hroom
    obtain rfl := Option.some.inj hi
    obtain ⟨js, hlen, hkeep, hdraw⟩ := getServerRndDraws_eq hcurr
    have hjs : ∀ j ∈ js, ∃ n < js.length, rndDraw b avoid servers prng n = some j := by
      intro j hj
      obtain ⟨n, hn, hj⟩ := List.mem_iff_getElem.mp hj
      exact ⟨n, hn, (hdraw n hn).trans ((List.getElem?_eq_getElem hn).trans (congrArg some hj))⟩
    have hs : ∀ j ∈ js, j ∈ rndServers b avoid servers := fun j hj =>
      let ⟨_, _, hn⟩ := hjs j hj
      ⟨_, hn⟩
    obtain ⟨j, js, rfl⟩ := List.exists_cons_of_length_pos (by omega : 0 < js.length)
    obtain ⟨i, -, hkeep', hmem, hle, hall⟩ := h.keep
      (fun k hk => hs k (List.mem_cons_of_mem _ hk)) (hs j List.mem_cons_self)
    obtain rfl : curr = i := Option.some.inj (hkeep.symm.trans hkeep')
    rw [← hlen]
    refine ⟨hroom, hjs curr (List.mem_cons.mpr hmem), fun n hn => ?_⟩
    refine ⟨_, (hdraw n hn).trans (List.getElem?_eq_getElem hn), ?_⟩
    rcases List.mem_cons.mp (List.getElem_mem hn) with heq | hmem
    · rw [heq]
      exact hle
    · exact hall _ hmem

/-- Two servers with a weight of 1 and a node each: one serves five requests, the other one none. -/
def busyAndIdle : Backend Bool (Chash Bool) where
  srv i := { serverS1 with curEweight := 1, served := if i then 0 else 5 }
  px := { (newProxy [false, true] nodup_falseTrue).withLb
      { act := (EbTree.empty.insert 2000000000 (false, 0)).insert 4000000000 (true, 0)
        bck := .empty, last := none, lbNodesTot := fun _ => 1, lbNodesNow := fun _ => 1
        heap := [] }
    with srvAct := 2, totWeight := 2 }

theorem getServerRnd_least_busyAndIdle : ∃ n < max 1 4,
    rndDraw busyAndIdle none [] 1 n = some true :=
  (getServerRnd_least (i := true) 0 4 1
    ⟨fun i _ => by cases i <;> decide, fun i _ j _ => by cases i <;> cases j <;> decide⟩
    (by decide +kernel)).2.1

end SmartHAProxy
