/-
`resolv_get_ip_from_response` of resolvers.c: which address of a response a server
gets.

Every address of the response has a score, made of four preferences.  The loop over
the addresses keeps the record with the best score so far, and beside it the last
address of each family that was the best when it was met.  Behind the loop the
owner is attached to the record, but the address is chosen by its family.

Main result: `resolvPickIps_picked`, what the loop keeps.
-/
import Mathlib.Algebra.Ring.Nat
import SmartHAProxy.Dns.Response
import SmartHAProxy.Lib.Best

namespace SmartHAProxy

/-! ### Records, servers and options -/

/-- The families of addresses, `AF_*`. -/
inductive IpFamily
  | unspec
  | inet
  | inet6
  deriving DecidableEq, Repr

def IpFamily.size : IpFamily → ℕ
  | .unspec => 0
  | .inet => 4
  | .inet6 => 16

/-- A server: which one it is, and its backend. -/
structure SrvRef where
  id : ℕ
  proxy : ℕ
  deriving DecidableEq, Repr

/-- `struct resolv_answer_item` with the servers that are attached to it. -/
structure ServedItem extends ResolvAnswerItem where
  attachedServers : List SrvRef

/-- The family of the address of a record, if it has one. -/
def ResolvRecord.ipType (record : ResolvRecord) : Option IpFamily :=
  if record.type = dnsRtypeA then some .inet
  else if record.type = dnsRtypeAaaa then some .inet6
  else none

/-- An entry of `pref_net`. -/
structure PrefNet where
  family : IpFamily
  addr : CStr
  mask : CStr

/-- `struct resolv_options`, without `ignore_weight`. -/
structure ResolvOptions where
  familyPrio : IpFamily
  prefNet : List PrefNet
  acceptDuplicateIp : Bool

/-- The address that the caller uses now, and its family. -/
structure CurrentIp where
  family : IpFamily
  ip : CStr

/-! ### The score of an address -/

/-- `in_net_ipv4` and `in_net_ipv6`, for addresses of `n` bytes. -/
def inNet (n : ℕ) (addr mask net : CStr) : Bool :=
  (List.range n).all fun i =>
    (addr.getD i 0 &&& mask.getD i 0) == (net.getD i 0 &&& mask.getD i 0)

/-- The address is in one of the preferred networks of its family. -/
def inPrefNet (opts : ResolvOptions) (ipType : IpFamily) (ip : CStr) : Bool :=
  opts.prefNet.any fun net => net.family == ipType && inNet ipType.size ip net.mask net.addr

/-- Another server of the owner's backend is attached already. -/
def alreadyUsed (owner : Option SrvRef) (attached : List SrvRef) : Bool :=
  match owner with
  | none => false
  | some owner => attached.any fun srv => srv != owner && srv.proxy == owner.proxy

def currentipSel (current : CurrentIp) (ipType : IpFamily) (ip : CStr) : Bool :=
  ipType == current.family && ip.take ipType.size == current.ip.take ipType.size

section Score

variable (opts : ResolvOptions) (current : CurrentIp) (owner : Option SrvRef)

/-- The score of a record: none if it has no address, or one that may not be used twice. -/
def ipScore (record : ServedItem) : Option ℤ :=
  match record.ipType with
  | none => none
  | some ipType =>
    let used := alreadyUsed owner record.attachedServers
    if used && !opts.acceptDuplicateIp then none
    else some
      ((if ipType = opts.familyPrio then 8 else 0) +
        (if inPrefNet opts ipType record.address then 4 else 0) +
        (if used then 0 else 2) +
        (if currentipSel current ipType record.address then 1 else 0))

/-! ### The loop over the records -/

/-- The state of the loop; `foundRecord` is a position of the list. -/
structure IpPick where
  newip4 : Option CStr
  newip6 : Option CStr
  foundRecord : Option ℕ
  currentipFound : Bool
  maxScore : ℤ

def IpPick.start : IpPick := ⟨none, none, none, false, -1⟩

/-- One turn, for the record at position `j`, and if its score is the highest one there is. -/
def resolvPickIp (j : ℕ) (record : ServedItem) (st : IpPick) : IpPick × Bool :=
  match record.ipType, ipScore opts current owner record with
  | some ipType, some score =>
    if st.maxScore < score then
      ({ newip4 := if ipType = .inet then some record.address else st.newip4
         newip6 := if ipType = .inet then st.newip6 else some record.address
         foundRecord := some j
         currentipFound := currentipSel current ipType record.address
         maxScore := score }, score == 15)
    else (st, false)
  | _, _ => (st, false)

/-- The loop from position `j` on, and if the highest score has ended it. -/
def resolvPickIps : ℕ → List ServedItem → IpPick → IpPick × Bool
  | _, [], st => (st, false)
  | j, record :: rest, st =>
    match resolvPickIp opts current owner j record st with
    | (st, true) => (st, true)
    | (st, false) => resolvPickIps (j + 1) rest st

/-! ### The choice -/

/-- `RSLV_UPD_*`. -/
inductive RslvUpd
  | no
  | srvipNotFound
  | noIpFound
  deriving DecidableEq, Repr

/-- The address of the family that is looked for first, or else the other one. -/
def chooseNewip (familyPriority : IpFamily) (st : IpPick) : Option (IpFamily × CStr) :=
  let newip4 := st.newip4.map fun ip => (IpFamily.inet, ip)
  let newip6 := st.newip6.map fun ip => (IpFamily.inet6, ip)
  match familyPriority with
  | .inet => newip4.or newip6
  | .inet6 => newip6.or newip4
  | .unspec => newip6.or newip4

/-- The owner is attached to the record at the position. -/
def attachOwner (j : Option ℕ) (list : List ServedItem) : List ServedItem :=
  match owner, j with
  | some owner, some j => list.modify j fun record =>
    { record with attachedServers := record.attachedServers ++ [owner] }
  | _, _ => list

/-- The first record is moved to the end of the list. -/
def moveFirst : List ServedItem → List ServedItem
  | [] => []
  | record :: rest => rest ++ [record]

/-- The result: the code, the address stored in `*newip`, if there is one, and the list. -/
structure IpChoice where
  code : RslvUpd
  newip : Option (IpFamily × CStr)
  list : List ServedItem

/-- The owner is in a list of attached servers, of this response or of another one. -/
def ownerLinked (elsewhere : Bool) (list : List ServedItem) : Bool :=
  match owner with
  | none => false
  | some owner => elsewhere || list.any fun record => record.attachedServers.contains owner

/-- `resolv_get_ip_from_response`; `elsewhere` is true if the owner is attached to a record of
another response. -/
def resolvGetIpFromResponse (elsewhere : Bool) (list : List ServedItem) : IpChoice :=
  if ownerLinked owner elsewhere list then ⟨.no, none, list⟩
  else
    match resolvPickIps opts current owner 0 list .start with
    | (st, true) => ⟨.no, none, attachOwner owner st.foundRecord list⟩
    | (st, false) =>
      if st.newip4 = none ∧ st.newip6 = none then ⟨.noIpFound, none, list⟩
      else
        { code := if st.currentipFound then .no else .srvipNotFound
          newip := chooseNewip opts.familyPrio st
          list := moveFirst (attachOwner owner st.foundRecord list) }

/-! ### What the loop keeps -/

def scoreAt (list : List ServedItem) (j : ℕ) : Option ℤ :=
  list[j]?.bind (ipScore opts current owner)

/-- The record at the position is better than all before it, and has this address. -/
def LeadsFamily (list : List ServedItem) (family : IpFamily) (ip : CStr) (j : ℕ) : Prop :=
  Leads (scoreAt opts current owner list) j ∧
    ∃ record, list[j]? = some record ∧ record.ipType = some family ∧ record.address = ip

/-- The address that is kept for a family. -/
def IpPick.newip (st : IpPick) (family : IpFamily) : Option CStr :=
  if family = .inet then st.newip4 else st.newip6

/-- What is kept of the first `n` records: the first best one with its address, and an address for
every family that has ever been the best. -/
structure Picked (list : List ServedItem) (n : ℕ) (st : IpPick) : Prop where
  unfound : st.foundRecord = none → st.maxScore = -1 ∧
    ∀ i < n, scoreAt opts current owner list i = none
  found : ∀ k, st.foundRecord = some k →
    Best (scoreAt opts current owner list) n k st.maxScore ∧
      ∃ record family, list[k]? = some record ∧ record.ipType = some family ∧
        st.newip family = some record.address
  kept : ∀ family ≠ .unspec, ∀ ip, st.newip family = some ip →
    ∃ i < n, LeadsFamily opts current owner list family ip i
  any : ∀ family ≠ .unspec, ∀ i < n, ∀ ip, LeadsFamily opts current owner list family ip i →
    st.newip family ≠ none

variable {opts current owner}

theorem ipScore_bounds {record : ServedItem} {s : ℤ}
    (h : ipScore opts current owner record = some s) :
    0 ≤ s ∧ ∃ family, record.ipType = some family ∧
      (family = opts.familyPrio → 8 ≤ s) ∧ (family ≠ opts.familyPrio → s ≤ 7) := by
  rw [ipScore] at h
  rcases htype : record.ipType with - | family
  · rw [htype] at h
    exact nomatch h
  rw [htype] at h
  simp only at h
  by_cases hskip : (alreadyUsed owner record.attachedServers && !opts.acceptDuplicateIp) = true
  · rw [if_pos hskip] at h
    exact nomatch h
  rw [if_neg hskip] at h
  have hsum := Option.some.inj h
  have hite (p : Prop) [Decidable p] (a b : ℤ) (ha : 0 ≤ a) (hb : 0 ≤ b) :
      0 ≤ (if p then a else b) ∧ (if p then a else b) ≤ a + b := by
    split_ifs <;> omega
  have hnet := hite (inPrefNet opts family record.address = true) 4 0 (by omega) (by omega)
  have hused := hite (alreadyUsed owner record.attachedServers = true) 0 2 (by omega) (by omega)
  have hcur := hite (currentipSel current family record.address = true) 1 0 (by omega) (by omega)
  by_cases hprio : family = opts.familyPrio
  · rw [if_pos hprio] at hsum
    exact ⟨by omega, family, rfl, fun _ => by omega, fun hne => absurd hprio hne⟩
  · rw [if_neg hprio] at hsum
    exact ⟨by omega, family, rfl, fun heq => absurd heq hprio, fun _ => by omega⟩

theorem picked_start (list : List ServedItem) : Picked opts current owner list 0 .start where
  unfound _ := ⟨rfl, fun i hi => absurd hi (Nat.not_lt_zero i)⟩
  found k hk := nomatch hk
  kept family _ ip h := by
    rw [IpPick.newip, IpPick.start, ite_self] at h
    exact nomatch h
  any _ _ i hi := absurd hi (Nat.not_lt_zero i)

section Turn

variable {list : List ServedItem} {n : ℕ} {st : IpPick} {record : ServedItem} {s : ℤ}

theorem Picked.lt_of_maxScore (h : Picked opts current owner list n st) (hs : st.maxScore < s) :
    ∀ i < n, ∀ t, scoreAt opts current owner list i = some t → t < s := by
  intro i hi t ht
  rcases hfound : st.foundRecord with - | k
  · -- there is no score before
    have hnone := (h.unfound hfound).2 i hi
    rw [hnone] at ht
    exact nomatch ht
  · have hle := ((h.found k hfound).1).le i hi t ht
    omega

/-- A record that is not better than all before it changes nothing. -/
theorem Picked.skip (h : Picked opts current owner list n st)
    (hn : ∀ t, scoreAt opts current owner list n = some t → t ≤ st.maxScore) :
    Picked opts current owner list (n + 1) st where
  unfound hfound := by
    obtain ⟨hmax, hnone⟩ := h.unfound hfound
    refine ⟨hmax, fun i hi => ?_⟩
    rcases Nat.lt_succ_iff_lt_or_eq.mp hi with hi | rfl
    · exact hnone i hi
    · rcases hscore : scoreAt opts current owner list i with - | t
      · rfl
      · -- a score is not below 0
        obtain ⟨record, -, hrec⟩ := Option.bind_eq_some_iff.mp hscore
        have hpos := (ipScore_bounds hrec).1
        have hle := hn t hscore
        omega
  found k hfound := by
    obtain ⟨hbest, hrec⟩ := h.found k hfound
    exact ⟨hbest.skip hn, hrec⟩
  kept family hfamily ip hip := by
    obtain ⟨i, hi, hlead⟩ := h.kept family hfamily ip hip
    exact ⟨i, Nat.lt_succ_of_lt hi, hlead⟩
  any family hfamily i hi ip hlead := by
    rcases Nat.lt_succ_iff_lt_or_eq.mp hi with hi | rfl
    · exact h.any family hfamily i hi ip hlead
    · -- it does not lead
      obtain ⟨⟨t, ht, hfirst⟩, -⟩ := hlead
      have hle := hn t ht
      rcases hfound : st.foundRecord with - | k
      · obtain ⟨record, -, hrec⟩ := Option.bind_eq_some_iff.mp ht
        have hpos := (ipScore_bounds hrec).1
        have hmax := (h.unfound hfound).1
        omega
      · obtain ⟨hbest, -⟩ := h.found k hfound
        have hlt := hfirst k hbest.lt _ hbest.value
        omega

/-- A record that is better than all before it is kept. -/
theorem Picked.take (h : Picked opts current owner list n st) (hrec : list[n]? = some record)
    {ipType : IpFamily} (htype : record.ipType = some ipType)
    (hscore : ipScore opts current owner record = some s) (hs : st.maxScore < s) :
    Picked opts current owner list (n + 1)
      { newip4 := if ipType = .inet then some record.address else st.newip4
        newip6 := if ipType = .inet then st.newip6 else some record.address
        foundRecord := some n
        currentipFound := currentipSel current ipType record.address
        maxScore := s } := by
  have hlt := h.lt_of_maxScore hs
  have hn : scoreAt opts current owner list n = some s := by
    rw [scoreAt, hrec]
    exact hscore
  -- what is kept for the family of the record, and for the other one
  have hsame : (if ipType = .inet then
      if ipType = .inet then some record.address else st.newip4
      else if ipType = .inet then st.newip6 else some record.address) = some record.address := by
    by_cases hinet : ipType = .inet
    · simp only [if_pos hinet]
    · simp only [if_neg hinet]
  have hother {family : IpFamily} (hfamily : family ≠ .unspec) (hne : family ≠ ipType) :
      (if family = .inet then if ipType = .inet then some record.address else st.newip4
        else if ipType = .inet then st.newip6 else some record.address) = st.newip family := by
    have hunspec : ipType ≠ .unspec := by
      rintro rfl
      rw [ResolvRecord.ipType] at htype
      split_ifs at htype <;> cases htype
    rw [IpPick.newip]
    cases family with
    | unspec => exact absurd rfl hfamily
    | inet => rw [if_pos rfl, if_pos rfl, if_neg (Ne.symm hne)]
    | inet6 =>
      cases ipType with
      | unspec => exact absurd rfl hunspec
      | inet => rfl
      | inet6 => exact absurd rfl hne
  have hlead : LeadsFamily opts current owner list ipType record.address n :=
    ⟨⟨s, hn, hlt⟩, record, hrec, htype, rfl⟩
  refine ⟨fun hfound => absurd hfound (Option.some_ne_none n), fun k hk => ?_,
    fun family hfamily ip hip => ?_, fun family hfamily i hi ip hl => ?_⟩
  · obtain rfl := Option.some.inj hk
    exact ⟨best_of_leads hn hlt, record, ipType, hrec, htype, hsame⟩
  · by_cases heq : family = ipType
    · subst heq
      obtain rfl := Option.some.inj (hsame.symm.trans hip)
      exact ⟨n, Nat.lt_succ_self n, hlead⟩
    · obtain ⟨i, hi, hl⟩ := h.kept family hfamily ip ((hother hfamily heq).symm.trans hip)
      exact ⟨i, Nat.lt_succ_of_lt hi, hl⟩
  · by_cases heq : family = ipType
    · subst heq
      exact fun hnone => Option.some_ne_none _ (hsame.symm.trans hnone)
    · intro hnone
      rcases Nat.lt_succ_iff_lt_or_eq.mp hi with hi | rfl
      · exact h.any family hfamily i hi ip hl ((hother hfamily heq).symm.trans hnone)
      · obtain ⟨-, record', hrec', htype', -⟩ := hl
        obtain rfl := Option.some.inj (hrec.symm.trans hrec')
        exact heq (Option.some.inj (htype'.symm.trans htype))

/-- **One turn** keeps what is said of the records before. -/
theorem resolvPickIp_picked (h : Picked opts current owner list n st)
    (hrec : list[n]? = some record) :
    Picked opts current owner list (n + 1) (resolvPickIp opts current owner n record st).1 := by
  have hat : scoreAt opts current owner list n = ipScore opts current owner record := by
    rw [scoreAt, hrec]
    rfl
  rw [resolvPickIp]
  rcases hscore : ipScore opts current owner record with - | score
  · -- no address, or not eligible
    have hskip := h.skip fun t ht => by
      rw [hat, hscore] at ht
      exact nomatch ht
    cases record.ipType <;> exact hskip
  obtain ⟨-, family, htype, -⟩ := ipScore_bounds hscore
  rw [htype]
  simp only
  by_cases hlt : st.maxScore < score
  · rw [if_pos hlt]
    exact h.take hrec htype hscore hlt
  · rw [if_neg hlt]
    refine h.skip fun t ht => ?_
    rw [hat, hscore] at ht
    have heq := Option.some.inj ht
    omega

end Turn

theorem resolvPickIp_full {j : ℕ} {record : ServedItem} {st st' : IpPick}
    (h : resolvPickIp opts current owner j record st = (st', true)) :
    st'.maxScore = 15 ∧ st'.foundRecord = some j := by
  rw [resolvPickIp] at h
  split at h
  next ipType score _ _ =>
    by_cases hlt : st.maxScore < score
    · rw [if_pos hlt] at h
      obtain ⟨rfl, hfull⟩ := Prod.mk.inj h
      exact ⟨eq_of_beq hfull, rfl⟩
    · rw [if_neg hlt] at h
      exact absurd (Prod.mk.inj h).2 Bool.false_ne_true
  next => exact absurd (Prod.mk.inj h).2 Bool.false_ne_true

/-- **The loop**: what is kept of the records in front of its end, which are all of them unless the
highest score has ended it. -/
theorem resolvPickIps_picked {list rest : List ServedItem} {n : ℕ} {st st' : IpPick} {full : Bool}
    (h : Picked opts current owner list n st) (hn : n ≤ list.length) (hrest : list.drop n = rest)
    (hrun : resolvPickIps opts current owner n rest st = (st', full)) :
    ∃ m ≤ list.length, Picked opts current owner list m st' ∧ (full = false → m = list.length) ∧
      (full = true → st'.maxScore = 15 ∧ st'.foundRecord ≠ none) := by
  induction rest generalizing n st with
  | nil =>
    cases hrun
    exact ⟨n, hn, h, fun _ => Nat.le_antisymm hn (List.drop_eq_nil_iff.mp hrest),
      fun hfull => absurd hfull Bool.false_ne_true⟩
  | cons record rest ih =>
    have hrec : list[n]? = some record := by
      rw [← List.head?_drop, hrest]
      rfl
    have hturn := resolvPickIp_picked h hrec
    have hlt : n < list.length := (List.getElem?_eq_some_iff.mp hrec).1
    rw [resolvPickIps] at hrun
    rcases hpick : resolvPickIp opts current owner n record st with ⟨st₁, - | -⟩
    · rw [hpick] at hrun hturn
      refine ih hturn hlt ?_ hrun
      rw [← List.drop_drop, hrest]
      rfl
    · rw [hpick] at hrun hturn
      cases hrun
      obtain ⟨hmax, hfound⟩ := resolvPickIp_full hpick
      refine ⟨n + 1, hlt, hturn, fun hfull => absurd hfull.symm Bool.false_ne_true, fun _ => ?_⟩
      exact ⟨hmax, hfound ▸ Option.some_ne_none n⟩

end Score

end SmartHAProxy
