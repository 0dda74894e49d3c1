/-
The address that a server gets is the one of the record it is attached to.

The record is the first one with the highest score.  The address is the one kept
for the family that is looked for first.  With a preferred family both are the same,
for its records have the higher scores.  Without one, the families are tried in a
fixed order, be the best record of this family or not (`Misled`).

Main results: `chooseNewip_iff`, when the address is that of the best record, and
`address_coherent_iff`.
-/
import SmartHAProxy.Dns.Select

namespace SmartHAProxy

variable {record : ServedItem} {o : SrvRef} {k : ℕ} {family : IpFamily} {ip : CStr} {st : IpPick}

/-! ### What a caller relies on -/

/-- The records that the server is attached to. -/
def attachedTo (srv : SrvRef) (list : List ServedItem) : List ResolvRecord :=
  (list.filter fun record => record.attachedServers.contains srv).map (·.toResolvRecord)

section Coherent

variable (opts : ResolvOptions) (current : CurrentIp) (owner : Option SrvRef)

/-- The address that is stored, if one is, is the one of the record that the owner is attached to;
this record has the highest score, and no other server of the backend is attached to it, unless an
address may be used twice. -/
def CoherentChoice (list : List ServedItem) (res : IpChoice) : Prop :=
  res.code = .srvipNotFound ∨ res.newip ≠ none →
    ∃ record ∈ list, ∃ family s, record.ipType = some family ∧
      res.newip = some (family, record.address) ∧
      (∀ o ∈ owner, attachedTo o res.list = [record.toResolvRecord]) ∧
      ipScore opts current owner record = some s ∧
      (∀ other ∈ list, ∀ t, ipScore opts current owner other = some t → t ≤ s) ∧
      (opts.acceptDuplicateIp = false → ∀ o ∈ owner, ∀ srv ∈ record.attachedServers,
        srv ≠ o → srv.proxy ≠ o.proxy)

/-- The first record with the highest score is an IPv4 address, and an IPv6 address was better than
all records before it. -/
def Misled (list : List ServedItem) : Prop :=
  ∃ k s ip, Best (scoreAt opts current owner list) list.length k s ∧
    LeadsFamily opts current owner list .inet ip k ∧
    ∃ i < list.length, ∃ ip6, LeadsFamily opts current owner list .inet6 ip6 i

variable {opts current owner} {list : List ServedItem}

/-! ### Attaching the owner -/

theorem ipScore_unused {s : ℤ} (h : ipScore opts current owner record = some s)
    (hdup : opts.acceptDuplicateIp = false) :
    ∀ o ∈ owner, ∀ srv ∈ record.attachedServers, srv ≠ o → srv.proxy ≠ o.proxy := by
  rintro o ⟨⟩ srv hsrv hne heq
  have hused : alreadyUsed (some o) record.attachedServers = true := by
    rw [alreadyUsed, List.any_eq_true]
    exact ⟨srv, hsrv, by rw [heq, beq_self_eq_true, Bool.and_true]; exact bne_iff_ne.mpr hne⟩
  rw [ipScore] at h
  rcases htype : record.ipType with - | family
  · rw [htype] at h
    cases h
  · rw [htype] at h
    simp only [hused, hdup, Bool.not_false, Bool.and_self, if_true] at h
    cases h

theorem ipScore_address {other : ServedItem} (htype : record.ipType = other.ipType)
    (haddr : record.address = other.address) :
    ipScore opts current none record = ipScore opts current none other := by
  rw [ipScore, ipScore, htype, haddr]
  rfl

theorem attachedTo_cons_of_pos (h : record.attachedServers.contains o = true)
    (rest : List ServedItem) :
    attachedTo o (record :: rest) = record.toResolvRecord :: attachedTo o rest := by
  rw [attachedTo, List.filter_cons, if_pos h]
  rfl

theorem attachedTo_cons_of_neg (h : record.attachedServers.contains o = false)
    (rest : List ServedItem) : attachedTo o (record :: rest) = attachedTo o rest := by
  rw [attachedTo, List.filter_cons, h]
  rfl

theorem attachedTo_moveFirst {x : ResolvRecord} (h : attachedTo o list = [x]) :
    attachedTo o (moveFirst list) = [x] := by
  rcases list with - | ⟨record, rest⟩
  · exact h
  have happ : attachedTo o (rest ++ [record]) = attachedTo o rest ++ attachedTo o [record] := by
    rw [attachedTo, List.filter_append, List.map_append]
    rfl
  rw [moveFirst, happ]
  cases hrec : record.attachedServers.contains o with
  | true =>
    rw [attachedTo_cons_of_pos hrec] at h ⊢
    obtain ⟨hx, hrest⟩ := List.cons.inj h
    rw [hx, hrest]
    rfl
  | false =>
    rw [attachedTo_cons_of_neg hrec] at h ⊢
    rw [h]
    rfl

theorem attachedTo_attachOwner (hfree : ∀ r ∈ list, r.attachedServers.contains o = false)
    (hk : list[k]? = some record) :
    attachedTo o (attachOwner (some o) (some k) list) = [record.toResolvRecord] := by
  have hnone {l : List ServedItem} (h : ∀ r ∈ l, r.attachedServers.contains o = false) :
      attachedTo o l = [] := by
    rw [attachedTo, List.map_eq_nil_iff, List.filter_eq_nil_iff]
    intro r hr
    rw [h r hr]
    exact Bool.false_ne_true
  rw [attachOwner]
  induction list generalizing k with
  | nil => exact nomatch hk
  | cons r rest ih =>
    obtain ⟨hr, hrest⟩ := List.forall_mem_cons.mp hfree
    cases k with
    | zero =>
      obtain rfl := Option.some.inj hk
      have hnew : (r.attachedServers ++ [o]).contains o = true := by
        rw [List.contains_iff_mem]
        exact List.mem_append_right _ List.mem_cons_self
      show attachedTo o ({ r with attachedServers := r.attachedServers ++ [o] } :: rest) = _
      rw [attachedTo_cons_of_pos hnew, hnone hrest]
    | succ k =>
      rw [List.modify_succ_cons, attachedTo_cons_of_neg hr]
      exact ih hrest hk

theorem not_contains_of_ownerLinked {elsewhere : Bool}
    (h : ownerLinked (some o) elsewhere list = false) :
    ∀ r ∈ list, r.attachedServers.contains o = false := by
  intro r hr
  have hany := (Bool.or_eq_false_iff.mp h).2
  exact Bool.eq_false_iff.mpr (List.any_eq_false.mp hany r hr)

/-! ### The family that is chosen -/

theorem LeadsFamily.score {i : ℕ} (h : LeadsFamily opts current owner list family ip i) :
    ∃ record s, list[i]? = some record ∧ record.ipType = some family ∧ record.address = ip ∧
      ipScore opts current owner record = some s ∧
      scoreAt opts current owner list i = some s := by
  obtain ⟨⟨s, hs, -⟩, record, hrec, htype, haddr⟩ := h
  refine ⟨record, s, hrec, htype, haddr, ?_, hs⟩
  rw [scoreAt, hrec] at hs
  exact hs

theorem Best.family_eq {i : ℕ} {s : ℤ} (h : Best (scoreAt opts current owner list) list.length k s)
    (hk : list[k]? = some record) (htype : record.ipType = some family) (hi : i < list.length)
    (hl : LeadsFamily opts current owner list opts.familyPrio ip i) : family = opts.familyPrio := by
  obtain ⟨other, t, -, htype', -, hscore', ht⟩ := hl.score
  obtain ⟨-, family', hfamily', hge, -⟩ := ipScore_bounds hscore'
  have hprio : family' = opts.familyPrio := Option.some.inj (hfamily'.symm.trans htype')
  have hs : ipScore opts current owner record = some s := by
    have hv := h.value
    rw [scoreAt, hk] at hv
    exact hv
  obtain ⟨-, family'', hfamily'', -, hlt⟩ := ipScore_bounds hs
  obtain rfl := Option.some.inj (htype.symm.trans hfamily'')
  by_contra hne
  have h7 := hlt hne
  have h8 := hge hprio
  have hle := h.le i hi t ht
  omega

theorem chooseNewip_eq {prio : IpFamily} (h : chooseNewip prio st = some (family, ip)) :
    family ≠ .unspec ∧ st.newip family = some ip := by
  have h4 {x : Option CStr} {y : Option (IpFamily × CStr)} {f : IpFamily}
      (h : (x.map fun ip => (f, ip)).or y = some (family, ip)) :
      (family = f ∧ x = some ip) ∨ y = some (family, ip) := by
    cases x with
    | none => exact .inr h
    | some a =>
      obtain ⟨rfl, rfl⟩ := Prod.mk.inj (Option.some.inj h)
      exact .inl ⟨rfl, rfl⟩
  have hone {x : Option CStr} {f : IpFamily} (h : x.map (fun ip => (f, ip)) = some (family, ip)) :
      family = f ∧ x = some ip := by
    obtain ⟨a, rfl, hp⟩ := Option.map_eq_some_iff.mp h
    obtain ⟨rfl, rfl⟩ := Prod.mk.inj hp
    exact ⟨rfl, rfl⟩
  have hcases : (family = .inet ∧ st.newip4 = some ip) ∨
      (family = .inet6 ∧ st.newip6 = some ip) := by
    rw [chooseNewip.eq_def] at h
    cases prio with
    | unspec => exact ((h4 h).imp_right hone).symm
    | inet => exact (h4 h).imp_right hone
    | inet6 => exact ((h4 h).imp_right hone).symm
  rcases hcases with ⟨rfl, hip⟩ | ⟨rfl, hip⟩
  · exact ⟨nofun, hip⟩
  · exact ⟨nofun, hip⟩

theorem chooseNewip_eq_none {prio : IpFamily} (h : chooseNewip prio st = none) :
    st.newip4 = none ∧ st.newip6 = none := by
  rw [chooseNewip.eq_def] at h
  cases prio with
  | unspec =>
    obtain ⟨h6, h4⟩ := Option.or_eq_none_iff.mp h
    exact ⟨Option.map_eq_none_iff.mp h4, Option.map_eq_none_iff.mp h6⟩
  | inet =>
    obtain ⟨h4, h6⟩ := Option.or_eq_none_iff.mp h
    exact ⟨Option.map_eq_none_iff.mp h4, Option.map_eq_none_iff.mp h6⟩
  | inet6 =>
    obtain ⟨h6, h4⟩ := Option.or_eq_none_iff.mp h
    exact ⟨Option.map_eq_none_iff.mp h4, Option.map_eq_none_iff.mp h6⟩

/-- **The family**: the address of the best record is chosen, unless the families mislead. -/
theorem chooseNewip_iff (h : Picked opts current owner list list.length st)
    (hbest : Best (scoreAt opts current owner list) list.length k st.maxScore)
    (hk : list[k]? = some record) (htype : record.ipType = some family)
    (hnew : st.newip family = some record.address) :
    chooseNewip opts.familyPrio st = some (family, record.address) ↔
      ¬ (opts.familyPrio = .unspec ∧ Misled opts current owner list) := by
  have hlead : LeadsFamily opts current owner list family record.address k :=
    ⟨hbest.leads, record, hk, htype, rfl⟩
  -- a family that is preferred has not led if the best record is of the other one
  have hother {f : IpFamily} (hf : f ≠ .unspec) (hprio : opts.familyPrio = f) (hne : family ≠ f) :
      st.newip f = none := by
    rcases hip : st.newip f with - | ip
    · rfl
    · obtain ⟨i, hi, hl⟩ := h.kept f hf ip hip
      rw [← hprio] at hl
      exact absurd ((hbest.family_eq hk htype hi hl).trans hprio) hne
  have hfamily : family = .inet ∨ family = .inet6 := by
    rw [ResolvRecord.ipType] at htype
    split_ifs at htype
    · exact .inl (Option.some.inj htype).symm
    · exact .inr (Option.some.inj htype).symm
  rw [chooseNewip.eq_def]
  rcases hfamily with rfl | rfl
  · have h4 : st.newip4 = some record.address := hnew
    rcases hprio : opts.familyPrio
    · -- no preference: IPv6 first
      simp only [h4, Option.map_some, true_and]
      rcases h6 : st.newip6 with - | ip6
      · refine iff_of_true rfl ?_
        rintro ⟨-, -, -, -, -, i, hi, ip6, hl⟩
        exact h.any .inet6 (by decide) i hi ip6 hl h6
      · obtain ⟨i, hi, hl⟩ := h.kept .inet6 (by decide) ip6 h6
        refine iff_of_false (fun heq => ?_) (not_not_intro ⟨k, _, _, hbest, hlead, i, hi, ip6, hl⟩)
        exact absurd (Prod.mk.inj (Option.some.inj heq)).1 (by decide)
    · simp only [h4]
      exact iff_of_true rfl fun hm => absurd hm.1 (by decide)
    · have h6 : st.newip6 = none := hother (f := .inet6) (by decide) hprio (by decide)
      simp only [h4, h6]
      exact iff_of_true rfl fun hm => absurd hm.1 (by decide)
  · have h6 : st.newip6 = some record.address := hnew
    rcases hprio : opts.familyPrio
    · -- the best record is of the family that is tried first
      simp only [h6]
      refine iff_of_true rfl ?_
      rintro ⟨-, k', s', ip, hbest', ⟨-, record', hrec', htype', -⟩, -⟩
      obtain rfl := hbest.unique hbest'
      obtain rfl := Option.some.inj (hk.symm.trans hrec')
      exact absurd (Option.some.inj (htype.symm.trans htype')) (by decide)
    · have h4 : st.newip4 = none := hother (f := .inet) (by decide) hprio (by decide)
      simp only [h4, h6]
      exact iff_of_true rfl fun hm => absurd hm.1 (by decide)
    · simp only [h6]
      exact iff_of_true rfl fun hm => absurd hm.1 (by decide)

/-! ### The address and the record -/

/-- If the address is the one of a record with the highest score that the owner is attached to, it
is the address of the first such record. -/
theorem address_of_coherent {elsewhere : Bool} {code : RslvUpd}
    (h : Picked opts current owner list list.length st)
    (hfree : ownerLinked owner elsewhere list = false)
    (hbest : Best (scoreAt opts current owner list) list.length k st.maxScore)
    (hk : list[k]? = some record) (htype : record.ipType = some family)
    (hnew : st.newip family = some record.address) (hnone : chooseNewip opts.familyPrio st ≠ none)
    (hc : CoherentChoice opts current owner list
      ⟨code, chooseNewip opts.familyPrio st, moveFirst (attachOwner owner (some k) list)⟩) :
    chooseNewip opts.familyPrio st = some (family, record.address) := by
  obtain ⟨other, hmem, family', s', htype', hip, hatt, hs', hmax, -⟩ := hc (.inr hnone)
  simp only at hip hatt
  obtain ⟨hunspec, hnew'⟩ := chooseNewip_eq hip
  by_cases hsame : family' = family
  · subst hsame
    rw [hip, Option.some.inj (hnew.symm.trans hnew')]
  · exfalso
    rcases owner with - | o
    · -- without an owner, the score is one of the address
      obtain ⟨i, hi, hl⟩ := h.kept family' hunspec _ hnew'
      obtain ⟨lead, t, hrec, hltype, haddr, hlscore, ht⟩ := hl.score
      have hst : some s' = some t := by
        rw [← hs', ← hlscore]
        exact ipScore_address (htype'.trans hltype.symm) haddr.symm
      obtain rfl := Option.some.inj hst
      have hle : st.maxScore ≤ s' := by
        refine hmax record (List.mem_of_getElem? hk) _ ?_
        have hv := hbest.value
        rw [scoreAt, hk] at hv
        exact hv
      rcases Nat.lt_trichotomy i k with hlt | rfl | hlt
      · have := hbest.first i hlt s' ht
        omega
      · obtain rfl := Option.some.inj (hk.symm.trans hrec)
        exact hsame (Option.some.inj (hltype.symm.trans htype))
      · obtain ⟨⟨u, hu, hfirst⟩, -⟩ := hl
        have hlt' := hfirst k hlt _ hbest.value
        have hle' := hbest.le i hi u hu
        omega
    · -- the owner is attached to one record only
      have hone := attachedTo_moveFirst
        (attachedTo_attachOwner (not_contains_of_ownerLinked hfree) hk)
      have heq := (hatt o rfl).symm.trans hone
      have hrec := (List.cons.inj heq).1
      have hipType : other.ipType = record.ipType := congrArg ResolvRecord.ipType hrec
      rw [htype, htype'] at hipType
      exact hsame (Option.some.inj hipType)

/-- **The choice is coherent** if and only if the owner is attached already, or a family is
preferred, or the families do not mislead. -/
theorem address_coherent_iff (opts : ResolvOptions) (current : CurrentIp) (owner : Option SrvRef)
    (elsewhere : Bool) (list : List ServedItem) :
    CoherentChoice opts current owner list
        (resolvGetIpFromResponse opts current owner elsewhere list) ↔
      ownerLinked owner elsewhere list = true ∨ opts.familyPrio ≠ .unspec ∨
        ¬ Misled opts current owner list := by
  have hnothing {code : RslvUpd} {l : List ServedItem} (hcode : code ≠ .srvipNotFound) :
      CoherentChoice opts current owner list ⟨code, none, l⟩ := by
    rintro (h | h)
    · exact absurd h hcode
    · exact absurd rfl h
  rw [resolvGetIpFromResponse]
  by_cases hlinked : ownerLinked owner elsewhere list = true
  · rw [if_pos hlinked]
    exact iff_of_true (hnothing (by decide)) (.inl hlinked)
  rw [if_neg hlinked]
  have hright : (ownerLinked owner elsewhere list = true ∨ opts.familyPrio ≠ .unspec ∨
      ¬ Misled opts current owner list) ↔
      ¬ (opts.familyPrio = .unspec ∧ Misled opts current owner list) := by
    rw [or_iff_right hlinked, ← not_and_or]
  rw [hright]
  rcases hrun : resolvPickIps opts current owner 0 list .start with ⟨st, full⟩
  obtain ⟨m, hm, hpicked, hend, hfull⟩ :=
    resolvPickIps_picked (picked_start list) (Nat.zero_le _) rfl hrun
  have hscore {k : ℕ} {record : ServedItem} {s : ℤ} (hk : list[k]? = some record)
      (hv : scoreAt opts current owner list k = some s) :
      ipScore opts current owner record = some s := by
    rw [scoreAt, hk] at hv
    exact hv
  cases full with
  | true =>
    -- the highest score needs a preferred family
    refine iff_of_true (hnothing (by decide)) ?_
    rintro ⟨hprio, -⟩
    obtain ⟨hmax, hfound⟩ := hfull rfl
    obtain ⟨k, hk⟩ := Option.ne_none_iff_exists'.mp hfound
    obtain ⟨hbest, record, family, hrec, htype, -⟩ := hpicked.found k hk
    obtain ⟨-, family', htype', -, hlt⟩ := ipScore_bounds (hscore hrec hbest.value)
    have hne : family' ≠ opts.familyPrio := by
      rw [hprio]
      rintro rfl
      rw [ResolvRecord.ipType] at htype'
      split_ifs at htype' <;> cases htype'
    have h7 := hlt hne
    omega
  | false =>
    obtain rfl := hend rfl
    simp only
    rcases hfound : st.foundRecord with - | k
    · -- no record has a score
      have hno := (hpicked.unfound hfound).2
      have hempty : ∀ family : IpFamily, family ≠ .unspec → st.newip family = none := by
        intro family hfamily
        rcases hip : st.newip family with - | ip
        · rfl
        · obtain ⟨i, hi, ⟨s, hs, -⟩, -⟩ := hpicked.kept family hfamily ip hip
          rw [hno i hi] at hs
          cases hs
      have h4 : st.newip4 = none := hempty .inet (by decide)
      have h6 : st.newip6 = none := hempty .inet6 (by decide)
      rw [if_pos ⟨h4, h6⟩]
      refine iff_of_true (hnothing (by decide)) ?_
      rintro ⟨-, k, s, -, hbest, -⟩
      have hv := hbest.value
      rw [hno k hbest.lt] at hv
      cases hv
    · obtain ⟨hbest, record, family, hk, htype, hnew⟩ := hpicked.found k hfound
      have hsome : ¬ (st.newip4 = none ∧ st.newip6 = none) := by
        rintro ⟨h4, h6⟩
        rw [IpPick.newip, h4, h6, ite_self] at hnew
        cases hnew
      rw [if_neg hsome, ← chooseNewip_iff hpicked hbest hk htype hnew]
      have hchosen : chooseNewip opts.familyPrio st ≠ none := mt chooseNewip_eq_none hsome
      constructor
      · exact address_of_coherent hpicked (Bool.eq_false_iff.mpr hlinked) hbest hk htype hnew
          hchosen
      · intro hip _
        refine ⟨record, List.mem_of_getElem? hk, family, st.maxScore, htype, hip, ?_,
          hscore hk hbest.value, ?_, ipScore_unused (hscore hk hbest.value)⟩
        · rintro o rfl
          exact attachedTo_moveFirst (attachedTo_attachOwner
            (not_contains_of_ownerLinked (Bool.eq_false_iff.mpr hlinked)) hk)
        · intro other hmem t ht
          obtain ⟨i, hi⟩ := List.mem_iff_getElem?.mp hmem
          refine hbest.le i (List.getElem?_eq_some_iff.mp hi).1 t ?_
          rw [scoreAt, hi]
          exact ht

end Coherent

/-! ### Addresses of both families -/

/-- No family is preferred, and the network 10.0.0.0/8 is. -/
def mixedOptions : ResolvOptions := ⟨.unspec, [⟨.inet, [10, 0, 0, 0], [255, 0, 0, 0]⟩], false⟩

/-- A record with an address, to which no server is attached. -/
def addressItem (type : ℕ) (ip : CStr) : ServedItem :=
  ⟨⟨⟨fun _ => 0, type, 1, 9, 0, 0, 0, ip.length, ip, fun _ => 0, none⟩, none⟩, []⟩

def mixedList : List ServedItem :=
  [addressItem dnsRtypeAaaa [0, 0, 0, 0, 0, 0, 0, 0, 0, 0, 0, 0, 0, 0, 0, 1],
    addressItem dnsRtypeA [10, 0, 0, 1]]

/-- The server is attached to the record of 10.0.0.1, and gets ::1. -/
theorem not_address_coherent :
    ¬ ∀ (opts : ResolvOptions) (current : CurrentIp) (owner : Option SrvRef) (elsewhere : Bool)
      (list : List ServedItem), CoherentChoice opts current owner list
        (resolvGetIpFromResponse opts current owner elsewhere list) := by
  intro h
  obtain ⟨record, -, family, s, htype, hip, hatt, -⟩ :=
    h mixedOptions ⟨.unspec, []⟩ (some ⟨1, 7⟩) false mixedList (.inl rfl)
  have hstored : (resolvGetIpFromResponse mixedOptions ⟨.unspec, []⟩ (some ⟨1, 7⟩) false
      mixedList).newip.map (·.1) = some .inet6 := by decide
  have hattached : (attachedTo ⟨1, 7⟩ (resolvGetIpFromResponse mixedOptions ⟨.unspec, []⟩
      (some ⟨1, 7⟩) false mixedList).list).map (·.ipType) = [some .inet] := by decide
  rw [hip] at hstored
  rw [hatt ⟨1, 7⟩ rfl] at hattached
  obtain rfl : family = .inet6 := Option.some.inj hstored
  have hinet : record.ipType = some .inet := (List.cons.inj hattached).1
  rw [htype] at hinet
  exact absurd (Option.some.inj hinet) nofun

end SmartHAProxy
