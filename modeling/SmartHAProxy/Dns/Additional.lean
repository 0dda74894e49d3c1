/-
Which additional records are attached to which SRV items.

A record is attached, or refreshes the one attached, according to its name, its
address and the targets of the items.  The rest of the memory of an item is what
its allocation has held; it has no part in this (`SameItem`), because the target
of an item is a name (`NamedTargets`), so that a comparison ends in front of the
memory behind the name of the record.

Main results:

* `additional_filtered`: records of other types make no difference if the section
  can be passed, and if the scan finds the end of each name;
* `targets_named`: the targets are names, whatever packets arrive.
-/
import Mathlib.Data.List.Forall2
import Mathlib.Logic.Relation
import SmartHAProxy.Dns.Accept
import SmartHAProxy.Dns.Section

namespace SmartHAProxy

variable {list list' : List ResolvAnswerItem} {packet : CStr} {pos maxAnswerRecords : ℕ}
  {answers : List ResolvRecord} {res : ResolvResponse}

/-! ### The same up to memory -/

/-- The buffers are the same, or hold the same string. -/
def SameText (a b : CharBuf) : Prop :=
  a = b ∨ ∃ s : CStr, StartsWith a (s ++ [0]) ∧ StartsWith b (s ++ [0])

/-- Attached records that are the same. -/
structure SameAr (a b : ResolvRecord) : Prop where
  type : a.type = b.type
  cls : a.cls = b.cls
  ttl : a.ttl = b.ttl
  dataLen : a.dataLen = b.dataLen
  address : a.address = b.address
  lastSeen : a.lastSeen = b.lastSeen
  name : SameText a.name b.name

/-- Items that are the same, with the same records attached. -/
structure SameItem (s t : ResolvAnswerItem) : Prop where
  record : s.toResolvRecord = t.toResolvRecord
  attached : Option.Rel SameAr s.arItem t.arItem

/-- Lists with the same items and the same associations. -/
def SameAssociation (list list' : List ResolvAnswerItem) : Prop := List.Forall₂ SameItem list list'

theorem SameItem.refl (t : ResolvAnswerItem) : SameItem t t where
  record := rfl
  attached := by
    cases t.arItem with
    | none => exact .none
    | some ar => exact .some ⟨rfl, rfl, rfl, rfl, rfl, rfl, .inl rfl⟩

/-- The target of a SRV record is a name of so many bytes. -/
def NamedTarget (r : ResolvRecord) : Prop :=
  r.type = dnsRtypeSrv → ∃ ls, (∀ l ∈ ls, l ≠ [] ∧ l.length < 256) ∧
    StartsWith r.target (dnLabels ls) ∧ r.dataLen = (dnLabels ls).length

def NamedTargets (list : List ResolvAnswerItem) : Prop :=
  ∀ t ∈ list, NamedTarget t.toResolvRecord

/-! ### Comparing with a target -/

theorem toNat_istLc (c : UInt8) :
    (istLc c).toNat = if 65 ≤ c.toNat ∧ c.toNat ≤ 90 then c.toNat + 32 else c.toNat := by
  rw [istLc]
  simp only [isUpper_iff]
  split_ifs with hu
  · rw [UInt8.toNat_add]
    have h32 : (32 : UInt8).toNat = 32 := rfl
    omega
  · rfl

theorem eq_of_istLc_length {m n : ℕ} (hm : m < 256) (hn : n ≤ 63)
    (h : istLc (UInt8.ofNat m) = istLc (UInt8.ofNat n)) : m = n := by
  have hval := congrArg UInt8.toNat h
  have hm' : (UInt8.ofNat m).toNat = m := UInt8.toNat_ofNat_of_lt' hm
  have hn' : (UInt8.ofNat n).toNat = n := UInt8.toNat_ofNat_of_lt' (by show _ < 256; omega)
  rw [toNat_istLc, toNat_istLc, hm', hn'] at hval
  split_ifs at hval <;> omega

theorem exists_ne_of_longer (os ts : List CStr) (ho : ∀ l ∈ os, l ≠ [] ∧ l.length ≤ 63)
    (ht : ∀ l ∈ ts, l ≠ [] ∧ l.length < 256) (hlen : (dnLabels os).length < (dnLabels ts).length) :
    ∃ i ≤ (dnLabels os).length,
      istLc ((dnLabels ts).getD i 0) ≠ istLc ((dnLabels os ++ [0]).getD i 0) := by
  induction os generalizing ts with
  | nil =>
    rcases ts with - | ⟨t, ts⟩
    · exact absurd hlen (Nat.lt_irrefl _)
    · refine ⟨0, Nat.zero_le _, fun h => ?_⟩
      obtain ⟨hne, hlt⟩ := ht t List.mem_cons_self
      exact hne (List.length_eq_zero_iff.mp (eq_of_istLc_length hlt (Nat.zero_le _) h))
  | cons o os ih =>
    rcases ts with - | ⟨t, ts⟩
    · exact absurd hlen (Nat.not_lt_zero _)
    obtain ⟨⟨-, hole⟩, ho⟩ := List.forall_mem_cons.mp ho
    obtain ⟨⟨-, htlt⟩, ht⟩ := List.forall_mem_cons.mp ht
    by_cases hfirst : istLc (UInt8.ofNat t.length) = istLc (UInt8.ofNat o.length)
    · -- labels of the same length: go on behind them
      have hsame := eq_of_istLc_length htlt hole hfirst
      rw [length_dnLabels_cons, length_dnLabels_cons] at hlen
      obtain ⟨i, hi, hne⟩ := ih ts ho ht (by omega)
      refine ⟨o.length + 1 + i, by rw [length_dnLabels_cons]; omega, ?_⟩
      have hshift (l : CStr) (rest : CStr) (hl : l.length = o.length) (c : UInt8) :
          (c :: (l ++ rest)).getD (o.length + 1 + i) 0 = rest.getD i 0 := by
        rw [Nat.add_right_comm, List.getD_cons_succ, ← hl,
          List.getD_append_right _ _ _ _ (by omega), Nat.add_sub_cancel_left]
      rw [dnLabels_cons, dnLabels_cons, List.cons_append, List.append_assoc, hshift _ _ hsame,
        hshift _ _ rfl]
      exact hne
    · exact ⟨0, Nat.zero_le _, hfirst⟩

theorem resolvHostnameCmp_congr {target a b : CharBuf} {os ts : List CStr}
    (ho : ∀ l ∈ os, l ≠ [] ∧ l.length ≤ 63) (ht : ∀ l ∈ ts, l ≠ [] ∧ l.length < 256)
    (htarget : StartsWith target (dnLabels ts)) (ha : StartsWith a (dnLabels os ++ [0]))
    (hb : StartsWith b (dnLabels os ++ [0])) :
    resolvHostnameCmp target a (dnLabels ts).length
      = resolvHostnameCmp target b (dnLabels ts).length := by
  have hlen : (dnLabels os ++ [0]).length = (dnLabels os).length + 1 := List.length_append
  rw [Bool.eq_iff_iff, resolvHostnameCmp_iff, resolvHostnameCmp_iff]
  rcases Nat.lt_or_ge (dnLabels os).length (dnLabels ts).length with hlt | hle
  · -- a difference is met before the end of the owner
    obtain ⟨i, hi, hne⟩ := exists_ne_of_longer os ts ho ht hlt
    have hdiff {x : CharBuf} (hx : StartsWith x (dnLabels os ++ [0])) :
        ¬ ∀ i < (dnLabels ts).length, istLc (target i) = istLc (x i) := by
      intro h
      have heq := h i (by omega)
      rw [htarget i (by omega), hx i (by omega)] at heq
      exact hne heq
    exact iff_of_false (hdiff ha) (hdiff hb)
  · refine forall₂_congr fun i hi => ?_
    rw [ha i (by omega), hb i (by omega)]

/-! ### Attaching -/

section Attaching

variable {now : ℕ} {rec : AdRecord} {x y : ℕ × ResolvRecord} {s t : ResolvAnswerItem}

theorem MadeFrom.fields (hx : MadeFrom rec x) :
    x.1 = (dnLabels rec.labels).length ∧ x.2.type = rec.type ∧ x.2.cls = rec.cls ∧
      x.2.ttl = rec.ttl ∧ x.2.dataLen = rec.data.length ∧ x.2.address = rec.data ∧
      StartsWith x.2.name (dnLabels rec.labels ++ [0]) := by
  obtain ⟨mem, r, ⟨htype, hcls, httl⟩, hlen, rfl⟩ := hx
  exact ⟨rfl, htype, hcls, httl, hlen, rfl, startsWith_memcpyBuf _ _⟩

theorem MadeFrom.same (hx : MadeFrom rec x) (hy : MadeFrom rec y) (seen : Option ℕ) :
    SameAr { x.2 with lastSeen := seen } { y.2 with lastSeen := seen } := by
  obtain ⟨-, htx, hcx, hlx, hdx, hax, hnx⟩ := hx.fields
  obtain ⟨-, hty, hcy, hly, hdy, hay, hny⟩ := hy.fields
  exact ⟨htx.trans hty.symm, hcx.trans hcy.symm, hlx.trans hly.symm, hdx.trans hdy.symm,
    hax.trans hay.symm, rfl, .inr ⟨_, hnx, hny⟩⟩

theorem wantsAdditional_congr (hw : WellFormedRecord rec) (hx : MadeFrom rec x)
    (hy : MadeFrom rec y) (h : SameItem s t) (hs : NamedTarget s.toResolvRecord) :
    wantsAdditional x.2 s = wantsAdditional y.2 t := by
  have hrel {a b : Option ResolvRecord} (h : Option.Rel SameAr a b) : a.isNone = b.isNone := by
    cases h with
    | none => rfl
    | some _ => rfl
  have hisnone := hrel h.attached
  have htype : s.type = t.type := congrArg ResolvRecord.type h.record
  have htarget : s.target = t.target := congrArg ResolvRecord.target h.record
  have hdata : s.dataLen = t.dataLen := congrArg ResolvRecord.dataLen h.record
  rw [wantsAdditional, wantsAdditional, ← htype, ← htarget, ← hdata, ← hisnone]
  by_cases hsrv : s.type = dnsRtypeSrv
  · obtain ⟨ts, hts, hstart, hlen⟩ := hs hsrv
    rw [hlen, resolvHostnameCmp_congr hw.short hts hstart hx.fields.2.2.2.2.2.2
      hy.fields.2.2.2.2.2.2]
  · rw [beq_false_of_ne hsrv]
    rfl

theorem sameAdditional_congr (hx : MadeFrom rec x) (hy : MadeFrom rec y) (h : SameItem s t) :
    sameAdditional now x.1 x.2 s = sameAdditional now y.1 y.2 t := by
  have htype : s.type = t.type := congrArg ResolvRecord.type h.record
  have htarget : s.target = t.target := congrArg ResolvRecord.target h.record
  have hdata : s.dataLen = t.dataLen := congrArg ResolvRecord.dataLen h.record
  obtain ⟨hlx, htx, -, -, -, hax, hnx⟩ := hx.fields
  obtain ⟨hly, hty, -, -, -, hay, hny⟩ := hy.fields
  rw [sameAdditional, sameAdditional, ← htype, ← htarget, ← hdata]
  refine congrArg ((s.type == dnsRtypeSrv) && ·) ?_
  have hatt := h.attached
  generalize s.arItem = a at hatt
  generalize t.arItem = b at hatt
  cases hatt with
  | none => rfl
  | some hab =>
    simp only [hlx, hly, htx, hty, hax, hay, hab.type, hab.lastSeen, hab.address]
    by_cases hlen : (dnLabels rec.labels).length = s.dataLen
    · -- only the name is compared
      have hcmp : resolvHostnameCmp x.2.name s.target s.dataLen
          = resolvHostnameCmp y.2.name s.target s.dataLen := by
        rw [Bool.eq_iff_iff, resolvHostnameCmp_iff, resolvHostnameCmp_iff, ← hlen]
        have hl : (dnLabels rec.labels ++ [0]).length = (dnLabels rec.labels).length + 1 :=
          List.length_append
        refine forall₂_congr fun i hi => ?_
        rw [hnx i (by omega), hny i (by omega)]
      rw [hcmp]
    · simp only [beq_false_of_ne hlen, Bool.and_false, Bool.false_and]

theorem findIdx?_congr {α β : Type*} {R : α → β → Prop} {p : α → Bool} {q : β → Bool} {l : List α}
    {l' : List β} (h : List.Forall₂ R l l') (hpq : ∀ a ∈ l, ∀ b, R a b → p a = q b) :
    l.findIdx? p = l'.findIdx? q := by
  induction h with
  | nil => rfl
  | @cons a b l l' hab _ ih =>
    obtain ⟨ha, hl⟩ := List.forall_mem_cons.mp hpq
    rw [List.findIdx?_cons, List.findIdx?_cons, ha b hab, ih hl]

theorem forall₂_modify {α β : Type*} {R : α → β → Prop} {f : α → α} {g : β → β} {l : List α}
    {l' : List β} (h : List.Forall₂ R l l') (hfg : ∀ a b, R a b → R (f a) (g b)) (k : ℕ) :
    List.Forall₂ R (l.modify k f) (l'.modify k g) := by
  induction h generalizing k with
  | nil => cases k <;> exact .nil
  | @cons a b l l' hab hl ih =>
    cases k with
    | zero => exact .cons (hfg a b hab) hl
    | succ k => exact .cons hab (ih k)

/-- **One record** makes the same of the same lists. -/
theorem storeAdditional_congr (h : SameAssociation list list') (hn : NamedTargets list)
    (hw : WellFormedRecord rec) (hx : MadeFrom rec x) (hy : MadeFrom rec y) :
    SameAssociation (resolvStoreAdditional now x.1 list x.2)
      (resolvStoreAdditional now y.1 list' y.2) := by
  have hsame : list.findIdx? (sameAdditional now x.1 x.2)
      = list'.findIdx? (sameAdditional now y.1 y.2) :=
    findIdx?_congr h fun _ _ _ hst => sameAdditional_congr hx hy hst
  have hwants : list.findIdx? (wantsAdditional x.2) = list'.findIdx? (wantsAdditional y.2) :=
    findIdx?_congr h fun a ha _ hst => wantsAdditional_congr hw hx hy hst (hn a ha)
  rw [resolvStoreAdditional, resolvStoreAdditional, ← hsame, ← hwants]
  rcases list.findIdx? (sameAdditional now x.1 x.2) with - | k
  · rcases list.findIdx? (wantsAdditional x.2) with - | k
    · exact h
    · -- attached
      apply forall₂_modify h
      intro a b hab
      exact ⟨hab.record, .some (hx.same hy _)⟩
  · -- refreshed
    apply forall₂_modify h
    intro a b hab
    refine ⟨hab.record, ?_⟩
    have hrel {s t : Option ResolvRecord} (hst : Option.Rel SameAr s t) :
        Option.Rel SameAr (s.map fun ar => { ar with lastSeen := some now })
          (t.map fun ar => { ar with lastSeen := some now }) := by
      cases hst with
      | none => exact .none
      | some har =>
        exact .some ⟨har.type, har.cls, har.ttl, har.dataLen, har.address, rfl, har.name⟩
    exact hrel hab.attached

theorem namedTargets_of_map (h : list.map (·.toResolvRecord) = list'.map (·.toResolvRecord))
    (hn : NamedTargets list) : NamedTargets list' := by
  intro t ht
  have hmem : t.toResolvRecord ∈ list.map (·.toResolvRecord) := by
    rw [h]
    exact List.mem_map_of_mem ht
  obtain ⟨s, hs, heq⟩ := List.mem_map.mp hmem
  rw [← heq]
  exact hn s hs

/-- **All records** do. -/
theorem storeAdditionals_congr {rs : List AdRecord} (hw : ∀ rec ∈ rs, WellFormedRecord rec)
    {xs ys : List (ℕ × ResolvRecord)} (hxs : List.Forall₂ MadeFrom rs xs)
    (hys : List.Forall₂ MadeFrom rs ys) {list list' : List ResolvAnswerItem}
    (h : SameAssociation list list') (hn : NamedTargets list) :
    SameAssociation (storeAdditionals now list xs) (storeAdditionals now list' ys) := by
  induction rs generalizing xs ys list list' with
  | nil =>
    cases hxs
    cases hys
    exact h
  | cons rec rs ih =>
    obtain ⟨hwrec, hw⟩ := List.forall_mem_cons.mp hw
    cases hxs with
    | @cons _ x _ xs hx hxs =>
      cases hys with
      | @cons _ y _ ys hy hys =>
        have hone := map_storeAdditionals now list [x]
        exact ih hw hxs hys (storeAdditional_congr h hn hwrec hx hy)
          (namedTargets_of_map hone.symm hn)

end Attaching

/-! ### Targets are names -/

theorem NameAt.label_bounds {left : ℕ} {own all : List CStr} {ptr : Bool}
    (h : NameAt packet left pos own ptr all) : ∀ l ∈ all, l ≠ [] ∧ l.length < 256 := by
  induction h with
  | root _ => exact fun l hl => absurd hl List.not_mem_nil
  | @label left pos b l own all ptr _ _ h0 hlen _ _ ih =>
    refine List.forall_mem_cons.mpr ⟨⟨?_, hlen ▸ b.toNat_lt⟩, ih⟩
    rintro rfl
    exact h0 (UInt8.toNat_inj.mp hlen.symm)
  | pointer _ _ _ _ _ _ ih => exact ih

theorem resolvName_labels {reader offset : ℕ} {name : CStr}
    (h : resolvName packet reader = some (name, offset)) :
    ∃ ls, (∀ l ∈ ls, l ≠ [] ∧ l.length < 256) ∧ name = dnLabels ls := by
  have hread : resolvReadName packet reader dnsMaxNameSize = some (name, offset) := by
    rw [resolvName] at h
    split at h
    · cases h
    · exact h
  rw [resolvReadName] at hread
  rcases hbytes : resolvReadBytes packet 101 reader dnsMaxNameSize with - | n
  · rw [hbytes] at hread
    cases hread
  rw [hbytes] at hread
  obtain ⟨own, ptr, all, hname, hn, -⟩ := (resolvReadBytes_iff packet 101 reader _ n).mp hbytes
  obtain ⟨rfl, -⟩ := Prod.mk.inj (Option.some.inj hread)
  exact ⟨all, hname.label_bounds, hn⟩

theorem namedTarget_of_readData {last : Bool} {r : DnsRecord} {mem item : ResolvRecord}
    {owner : CStr} {size : ℕ}
    (h : resolvReadData packet last r (mem.init owner r) = .ok (item, size)) :
    NamedTarget item := by
  intro hsrv
  have htype : item.type = r.type := by
    rw [resolvReadData] at h
    split_ifs at h
    · cases h
      rfl
    · split at h
      · cases h
      · cases h
        rfl
    · split at h
      · cases h
      · cases h
        rfl
    · cases h
      rfl
    · cases h
      rfl
  rw [htype] at hsrv
  rw [resolvReadData, hsrv, if_neg (by decide), if_neg (by decide), if_pos rfl] at h
  split_ifs at h
  rcases hname : resolvName packet (r.data + 6) with - | ⟨target, offset⟩
  · rw [hname] at h
    cases h
  · rw [hname] at h
    obtain ⟨ls, hls, rfl⟩ := resolvName_labels hname
    cases h
    exact ⟨ls, hls, startsWith_strcpyBuf _ _, rfl⟩

theorem dnsAnswersRead_named (packet : CStr) (pool : ℕ → Option ResolvRecord)
    (qtype ancount n i reader : ℕ) (prev : CharBuf) :
    ∀ item ∈ (dnsAnswersRead packet pool qtype ancount n i reader prev).1, NamedTarget item := by
  induction n generalizing i reader prev with
  | zero => exact fun item hitem => absurd hitem List.not_mem_nil
  | succ n ih =>
    rw [dnsAnswersRead]
    rcases hread : dnsAnswerRead packet pool qtype ancount i reader prev with
      e | ⟨item, reader', prev'⟩
    · exact fun item hitem => absurd hitem List.not_mem_nil
    · refine List.forall_mem_cons.mpr ⟨?_, ih (i + 1) reader' prev'⟩
      rw [dnsAnswerRead] at hread
      split_ifs at hread
      rcases hmem : pool i with - | mem
      · rw [hmem] at hread
        cases hread
      rw [hmem] at hread
      rcases hname : resolvName packet reader with - | ⟨owner, offset⟩
      · rw [hname] at hread
        cases hread
      rw [hname] at hread
      simp only at hread
      split_ifs at hread
      rcases hrec : resolvReadRecord packet (reader + offset) with - | r
      · rw [hrec] at hread
        cases hread
      rw [hrec] at hread
      rcases hdata : resolvReadData packet (i + 1 == ancount) r (mem.init owner r) with
        e | ⟨item', size⟩
      · simp only [hdata] at hread
        cases hread
      · simp only [hdata] at hread
        cases hread
        exact namedTarget_of_readData hdata

theorem namedTargets_storeAnswers {now : ℕ} (h : NamedTargets list)
    (ha : ∀ item ∈ answers, NamedTarget item) : NamedTargets (storeAnswers now list answers) := by
  induction answers generalizing list with
  | nil => exact h
  | cons item answers ih =>
    obtain ⟨hitem, ha⟩ := List.forall_mem_cons.mp ha
    refine ih ?_ ha
    rw [resolvStoreAnswer]
    split
    · -- a refreshed item keeps its target
      intro t ht
      obtain ⟨k, hk⟩ := List.mem_iff_getElem?.mp ht
      rw [getElem?_modify_ite] at hk
      split_ifs at hk
      · obtain ⟨s, hs, rfl⟩ := Option.map_eq_some_iff.mp hk
        exact h s (List.mem_of_getElem? hs)
      · exact h t (List.mem_of_getElem? hk)
    · intro t ht
      rcases List.mem_append.mp ht with ht | ht
      · exact h t ht
      · obtain rfl := List.mem_singleton.mp ht
        exact hitem

theorem dnsRead_named (packet : CStr) (maxAnswerRecords : ℕ) (pool : ℕ → Option ResolvRecord)
    (res : ResolvResponse) :
    ∀ item ∈ (dnsRead packet maxAnswerRecords pool res).answers, NamedTarget item := by
  have hnil : ∀ item ∈ ([] : List ResolvRecord), NamedTarget item :=
    fun item hitem => absurd hitem List.not_mem_nil
  rw [dnsRead]
  rcases resolvReadHeader packet maxAnswerRecords res.header with ⟨header, - | e⟩
  swap
  · exact hnil
  rcases resolvReadQuestion packet with - | ⟨name, type, cls, reader⟩
  · exact hnil
  simp only
  split_ifs
  · exact hnil
  all_goals
    have hnamed := dnsAnswersRead_named packet pool type header.ancount header.ancount 0 reader
      (memcpyBuf res.query.name name)
    generalize dnsAnswersRead packet pool type header.ancount header.ancount 0 reader
      (memcpyBuf res.query.name name) = q at hnamed
    obtain ⟨answers, reader' | e⟩ := q
  · exact hnamed
  · exact hnamed
  · show ∀ item ∈ (dnsReadRest packet pool header answers reader').answers, NamedTarget item
    rw [dnsReadRest]
    rcases resolvAuthority packet header.nscount reader' with - | reader''
    · exact hnamed
    · exact hnamed
  · exact hnamed

/-- **Targets are names** in every list that responses have made. -/
theorem namedTargets_validate {now : ℕ} (packet : CStr) (maxAnswerRecords : ℕ)
    (pool : ℕ → Option ResolvRecord) (h : NamedTargets res.answerList) :
    NamedTargets (resolvValidateDnsResponse packet maxAnswerRecords now pool res).1.answerList := by
  rw [(resolvValidate_answerList packet pool now maxAnswerRecords res).1]
  exact namedTargets_of_map (map_storeAdditionals now _ _).symm
    (namedTargets_storeAnswers h (dnsRead_named packet maxAnswerRecords pool res))

/-! ### Other records -/

/-- The answers of a SRV response, and the header and the position where the additional records
start. -/
def dnsUntilAdditional (packet : CStr) (maxAnswerRecords : ℕ) (pool : ℕ → Option ResolvRecord)
    (res : ResolvResponse) : Option (DnsHeader × List ResolvRecord × ℕ) :=
  match resolvReadHeader packet maxAnswerRecords res.header, resolvReadQuestion packet with
  | (header, none), some (name, type, _, reader) =>
    if type = dnsRtypeSrv then
      match dnsAnswersRead packet pool type header.ancount header.ancount 0 reader
        (memcpyBuf res.query.name name) with
      | (answers, .inl reader) =>
        (resolvAuthority packet header.nscount reader).map fun reader =>
          (header, answers, reader)
      | _ => none
    else none
  | _, _ => none

theorem dnsRead_until {pool : ℕ → Option ResolvRecord} {header : DnsHeader}
    (h : dnsUntilAdditional packet maxAnswerRecords pool res = some (header, answers, pos)) :
    let r := dnsRead packet maxAnswerRecords pool res
    r.answers = answers ∧ r.additionals = (dnsAdditionalsRead packet
      (fun j => pool (header.ancount + j)) header.arcount 0 pos).1 := by
  intro r
  have hr : r = dnsRead packet maxAnswerRecords pool res := rfl
  rw [dnsRead] at hr
  rw [dnsUntilAdditional] at h
  rcases hhead : resolvReadHeader packet maxAnswerRecords res.header with ⟨header', - | e⟩
  swap
  · rw [hhead] at h
    cases h
  rcases hq : resolvReadQuestion packet with - | ⟨name, type, cls, reader⟩
  · rw [hhead, hq] at h
    cases h
  rw [hhead, hq] at h hr
  simp only at h hr
  split_ifs at h with hsrv
  rw [if_neg fun hne => hne.1 hsrv] at hr
  rcases hans : dnsAnswersRead packet pool type header'.ancount header'.ancount 0 reader
    (memcpyBuf res.query.name name) with ⟨answers', reader' | e⟩
  swap
  · rw [hans] at h
    cases h
  rw [hans] at h hr
  obtain ⟨reader'', hauth, heq⟩ := Option.map_eq_some_iff.mp h
  obtain ⟨rfl, rfl, rfl⟩ : header' = header ∧ answers' = answers ∧ reader'' = pos := by
    simpa using heq
  simp only [if_neg (not_not_intro hsrv)] at hr
  rw [dnsReadRest, hauth] at hr
  rw [hr]
  exact ⟨rfl, rfl⟩

/-- **Additional records of other types make no difference**, if there are none, or if the section
can be passed and each of its names scanned: the response and one with the addresses only, alike up
to the additional section, leave the same associations. -/
theorem additional_filtered {packet' : CStr} {now pos' : ℕ} {pool : ℕ → Option ResolvRecord}
    {header header' : DnsHeader} {forms forms' : List (List CStr × Bool)} {rs : List AdRecord}
    (hp : dnsUntilAdditional packet maxAnswerRecords pool res = some (header, answers, pos))
    (hp' : dnsUntilAdditional packet' maxAnswerRecords pool res = some (header', answers, pos'))
    (hrs : RecordsAt packet pos forms rs) (hcount : header.arcount = rs.length)
    (hrs' : RecordsAt packet' pos' forms' (rs.filter AdRecord.isAddr))
    (hcount' : header'.arcount = (rs.filter AdRecord.isAddr).length) (hpool : ∀ j, pool j ≠ none)
    (hnamed : NamedTargets res.answerList)
    (hcond : packet = packet' ∨ ScansWell (forms ++ forms') ∧ Passable rs) :
    SameAssociation (resolvValidateDnsResponse packet maxAnswerRecords now pool res).1.answerList
      (resolvValidateDnsResponse packet' maxAnswerRecords now pool res).1.answerList := by
  rcases hcond with rfl | ⟨hscan, hpass⟩
  · exact List.forall₂_same.mpr fun t _ => .refl t
  obtain ⟨hscan, hscan'⟩ := List.forall_mem_append.mp hscan
  choose mem hmem using fun j => Option.ne_none_iff_exists'.mp (hpool j)
  have hpool' (k : ℕ) : (fun j => pool (k + j)) = fun j => some (mem (k + j)) := by
    funext j
    exact hmem (k + j)
  obtain ⟨ha, had⟩ := dnsRead_until hp
  obtain ⟨ha', had'⟩ := dnsRead_until hp'
  have hread := dnsAdditionalsRead_section (fun j => mem (header.ancount + j)) hrs hscan hpass 0
  have hread' := dnsAdditionalsRead_section (fun j => mem (header'.ancount + j)) hrs'
    hscan' (passable_filter rs) 0
  rw [namedAddrs_filter] at hread'
  rw [(resolvValidate_answerList packet pool now maxAnswerRecords res).1,
    (resolvValidate_answerList packet' pool now maxAnswerRecords res).1, ha, ha', had, had', hpool',
    hpool', hcount, hcount']
  refine storeAdditionals_congr (fun rec hrec => hrs.wellFormed rec ?_) hread hread'
    (List.forall₂_same.mpr fun t _ => .refl t) ?_
  · exact List.mem_of_mem_filter ((List.takeWhile_sublist _).subset hrec)
  · refine namedTargets_storeAnswers hnamed ?_
    rw [← ha]
    exact dnsRead_named packet maxAnswerRecords pool res

/-! ### An OPT record -/

/-- A response for the SRV name `s`, whose target is `t`, with `arcount` additional records. -/
def srvPacket (arcount : UInt8) (additional : CStr) : CStr :=
  [0, 0, 128, 0, 0, 1, 0, 1, 0, 0, 0, arcount, 1, 115, 0, 0, 33, 0, 1,
    1, 115, 0, 0, 33, 0, 1, 0, 0, 0, 9, 0, 9, 0, 0, 0, 1, 0, 80, 1, 116, 0] ++ additional

/-- The address of `t`. -/
def addrBytes : CStr := [1, 116, 0, 0, 1, 0, 1, 0, 0, 0, 9, 0, 4, 1, 2, 3, 4]

/-- An OPT record, whose name is the root. -/
def optBytes : CStr := [0, 0, 41, 16, 0, 0, 0, 0, 0, 0, 0]

def addrRecord : AdRecord := ⟨[[116]], 1, 1, 9, [1, 2, 3, 4]⟩

def optRecord : AdRecord := ⟨[], 41, 4096, 0, []⟩

def zeroPool : ℕ → Option ResolvRecord :=
  fun _ => some ⟨fun _ => 0, 0, 0, 0, 0, 0, 0, 0, [], fun _ => 0, none⟩

def emptyResponse : ResolvResponse := ⟨⟨0, 0, 0, 0, 0⟩, ⟨fun _ => 0, 0, 0⟩, []⟩

theorem wellFormed_addrRecord : WellFormedRecord addrRecord where
  short := by decide
  size := ⟨fun _ => rfl, fun h => absurd h (by decide)⟩

theorem wellFormed_optRecord : WellFormedRecord optRecord where
  short := by decide
  size := ⟨fun h => absurd h (by decide), fun h => absurd h (by decide)⟩

theorem resolvReadRecord_of_length {reader len : ℕ} (hlen : readN16 packet (reader + 8) = len)
    (h : reader + 10 + len ≤ packet.length) :
    resolvReadRecord packet reader = some
      { type := readN16 packet reader
        cls := readN16 packet (reader + 2)
        ttl := readN16 packet (reader + 4) * 65536 + readN16 packet (reader + 6)
        dataLen := len
        data := reader + 10 } := by
  subst hlen
  rw [resolvReadRecord, if_neg (by omega), if_neg (by omega), if_neg (by omega), if_neg (by omega),
    if_neg (by omega), if_neg (by omega)]

theorem nameAt_t {left : ℕ} (hl : packet[pos]? = some 1)
    (ht : (packet.drop (pos + 1)).take 1 = [116]) (h0 : packet[pos + 2]? = some 0) :
    NameAt packet left pos [[116]] false [[116]] :=
  .label hl (by decide) (by decide) rfl ht (.root h0)

theorem recordsAt_addr_opt : RecordsAt (srvPacket 2 (addrBytes ++ optBytes)) 41
    [([[116]], false), ([], false)] [addrRecord, optRecord] := by
  have haddr : RecordAt (srvPacket 2 (addrBytes ++ optBytes)) 41 [[116]] false addrRecord 58 :=
    ⟨_, nameAt_t rfl rfl rfl, by decide, resolvReadRecord_of_length rfl (by decide),
      ⟨rfl, rfl, rfl⟩, rfl, rfl, rfl⟩
  have hopt : RecordAt (srvPacket 2 (addrBytes ++ optBytes)) 58 [] false optRecord 69 :=
    ⟨_, .root rfl, Nat.zero_le _, resolvReadRecord_of_length rfl (by decide),
      ⟨rfl, rfl, rfl⟩, rfl, rfl, rfl⟩
  exact .cons haddr wellFormed_addrRecord (.cons hopt wellFormed_optRecord .nil)

theorem recordsAt_opt_addr : RecordsAt (srvPacket 2 (optBytes ++ addrBytes)) 41
    [([], false), ([[116]], false)] [optRecord, addrRecord] := by
  have hopt : RecordAt (srvPacket 2 (optBytes ++ addrBytes)) 41 [] false optRecord 52 :=
    ⟨_, .root rfl, Nat.zero_le _, resolvReadRecord_of_length rfl (by decide),
      ⟨rfl, rfl, rfl⟩, rfl, rfl, rfl⟩
  have haddr : RecordAt (srvPacket 2 (optBytes ++ addrBytes)) 52 [[116]] false addrRecord 69 :=
    ⟨_, nameAt_t rfl rfl rfl, by decide, resolvReadRecord_of_length rfl (by decide),
      ⟨rfl, rfl, rfl⟩, rfl, rfl, rfl⟩
  exact .cons hopt wellFormed_optRecord (.cons haddr wellFormed_addrRecord .nil)

theorem recordsAt_addr :
    RecordsAt (srvPacket 1 addrBytes) 41 [([[116]], false)] [addrRecord] := by
  have haddr : RecordAt (srvPacket 1 addrBytes) 41 [[116]] false addrRecord 58 :=
    ⟨_, nameAt_t rfl rfl rfl, by decide, resolvReadRecord_of_length rfl (by decide),
      ⟨rfl, rfl, rfl⟩, rfl, rfl, rfl⟩
  exact .cons haddr wellFormed_addrRecord .nil

set_option maxRecDepth 8000 in
theorem dnsUntilAdditional_srvPacket : ∃ header header' answers,
    dnsUntilAdditional (srvPacket 2 (addrBytes ++ optBytes)) 20 zeroPool emptyResponse
        = some (header, answers, 41) ∧
      dnsUntilAdditional (srvPacket 2 (optBytes ++ addrBytes)) 20 zeroPool emptyResponse
        = some (header, answers, 41) ∧
      dnsUntilAdditional (srvPacket 1 addrBytes) 20 zeroPool emptyResponse
        = some (header', answers, 41) ∧
      header.arcount = 2 ∧ header'.arcount = 1 :=
  ⟨_, _, _, rfl, rfl, rfl, rfl, rfl⟩

/-- Behind the address, the OPT record does no harm. -/
theorem additional_filtered_opt :
    SameAssociation
      (resolvValidateDnsResponse (srvPacket 2 (addrBytes ++ optBytes)) 20 9 zeroPool
        emptyResponse).1.answerList
      (resolvValidateDnsResponse (srvPacket 1 addrBytes) 20 9 zeroPool
        emptyResponse).1.answerList := by
  obtain ⟨header, header', answers, hp, -, hp', hcount, hcount'⟩ := dnsUntilAdditional_srvPacket
  have hscan : ScansWell ([([[116]], false), ([], false)] ++ [([[116]], false)]) := by
    intro f hf
    have hform : f = ([[116]], false) ∨ f = ([], false) := by
      simpa [or_comm, or_left_comm] using hf
    rintro ⟨w₁, c, w₂, hw, hstop, -⟩
    have hc : c ∈ dnLabels f.1 := hw ▸ List.mem_append_right _ List.mem_cons_self
    rcases hform with rfl | rfl
    · obtain rfl | rfl : c = 1 ∨ c = 116 := by simpa [dnLabels] using hc
      · exact absurd hstop (by unfold stopByte; decide)
      · exact absurd hstop (by unfold stopByte; decide)
    · cases hc
  refine additional_filtered hp hp' recordsAt_addr_opt hcount recordsAt_addr hcount'
    (fun j => Option.some_ne_none _) (fun t ht => absurd ht List.not_mem_nil)
    (.inr ⟨hscan, .inr fun a ha => ?_⟩)
  exact absurd ha (Option.not_mem_none a)

theorem SameAssociation.isSome_eq (h : SameAssociation list list') :
    list.map (·.arItem.isSome) = list'.map (·.arItem.isSome) := by
  induction h with
  | nil => rfl
  | @cons s t list list' hst _ ih =>
    have hone : s.arItem.isSome = t.arItem.isSome := by
      have hatt := hst.attached
      generalize s.arItem = a at hatt
      generalize t.arItem = b at hatt
      cases hatt with
      | none => rfl
      | some _ => rfl
    rw [List.map_cons, List.map_cons, hone, ih]

set_option maxRecDepth 8000 in
/-- In front of it, the OPT record keeps the address from its SRV item. -/
theorem not_additional_filtered :
    ¬ ∀ (packet packet' : CStr) (maxAnswerRecords now pos pos' : ℕ)
      (pool : ℕ → Option ResolvRecord) (res : ResolvResponse) (header header' : DnsHeader)
      (answers : List ResolvRecord) (forms forms' : List (List CStr × Bool))
      (rs : List AdRecord),
      dnsUntilAdditional packet maxAnswerRecords pool res = some (header, answers, pos) →
      dnsUntilAdditional packet' maxAnswerRecords pool res = some (header', answers, pos') →
      RecordsAt packet pos forms rs → header.arcount = rs.length →
      RecordsAt packet' pos' forms' (rs.filter AdRecord.isAddr) →
      header'.arcount = (rs.filter AdRecord.isAddr).length →
      (∀ j, pool j ≠ none) → NamedTargets res.answerList →
      SameAssociation (resolvValidateDnsResponse packet maxAnswerRecords now pool res).1.answerList
        (resolvValidateDnsResponse packet' maxAnswerRecords now pool res).1.answerList := by
  intro h
  obtain ⟨header, header', answers, -, hp, hp', hcount, hcount'⟩ := dnsUntilAdditional_srvPacket
  have hsame := h _ _ 20 9 41 41 zeroPool emptyResponse header header' answers _ _
    [optRecord, addrRecord] hp hp' recordsAt_opt_addr hcount recordsAt_addr hcount'
    (fun j => Option.some_ne_none _) (fun t ht => absurd ht List.not_mem_nil)
  have hopt : (resolvValidateDnsResponse (srvPacket 2 (optBytes ++ addrBytes)) 20 9 zeroPool
      emptyResponse).1.answerList.map (·.arItem.isSome) = [false] := rfl
  have haddr : (resolvValidateDnsResponse (srvPacket 1 addrBytes) 20 9 zeroPool
      emptyResponse).1.answerList.map (·.arItem.isSome) = [true] := rfl
  have heq := hsame.isSome_eq
  rw [hopt, haddr] at heq
  exact absurd heq (by decide)

/-! ### Runs -/

/-- What happens to the answer list of a resolution: a packet is validated, in whatever memory its
items are allocated, or items are taken out. -/
inductive ResolvStep (maxAnswerRecords : ℕ) : ResolvResponse → ResolvResponse → Prop
  | response (packet : CStr) (now : ℕ) (pool : ℕ → Option ResolvRecord) (res : ResolvResponse) :
      ResolvStep maxAnswerRecords res
        (resolvValidateDnsResponse packet maxAnswerRecords now pool res).1
  | expire {res : ResolvResponse} {list : List ResolvAnswerItem}
      (h : list.Sublist res.answerList) :
      ResolvStep maxAnswerRecords res { res with answerList := list }

/-- Whatever packets arrive, the target of each SRV record that is kept is a name, of as many bytes
as its `data_len` says. -/
theorem targets_named {res₀ : ResolvResponse} (hempty : res₀.answerList = [])
    (hrun : Relation.ReflTransGen (ResolvStep maxAnswerRecords) res₀ res) :
    NamedTargets res.answerList := by
  induction hrun with
  | refl => exact hempty ▸ fun t ht => absurd ht List.not_mem_nil
  | tail _ hstep ih =>
    cases hstep with
    | response packet now pool => exact namedTargets_validate packet maxAnswerRecords pool ih
    | expire hsub => exact fun t ht => ih t (hsub.subset ht)

theorem targets_named_srvPacket : NamedTargets (resolvValidateDnsResponse (srvPacket 1 addrBytes)
    20 9 zeroPool emptyResponse).1.answerList :=
  targets_named rfl (.single (.response _ 9 zeroPool emptyResponse))

end SmartHAProxy
