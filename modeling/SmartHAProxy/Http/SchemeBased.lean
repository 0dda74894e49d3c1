/-
Scheme-based normalization takes off the default port, and nothing else (http_htx.c).

The host header and the URI name the same host, and a second normalization finds
nothing to do.  `schemeNormalized_iff` is the exact condition: a default port that
is there is taken off the right place only without user info, before a "/" or the
end of the URI, when the host header is one element of a list and does not end in
the default port a second time.  With user info, the host header gets the user
info too, and the URI gets it twice.
-/
import SmartHAProxy.Http.DefaultPort

namespace SmartHAProxy

variable {c : HttpHdrCtx} {b : HtxBlk} {hdrs : List (CStr × CStr)} {stale : ℕ → CStr}

/-! ### One value of a header -/

theorem httpFindHdrValueEnd_le (quoted qdpair : Bool) (v : CStr) :
    httpFindHdrValueEnd quoted qdpair v ≤ v.length := by
  induction v generalizing quoted qdpair with
  | nil => exact Nat.le_refl 0
  | cons c v ih =>
    rw [httpFindHdrValueEnd, List.length_cons]
    have h (quoted qdpair : Bool) : 1 + httpFindHdrValueEnd quoted qdpair v ≤ v.length + 1 := by
      have := ih quoted qdpair
      omega
    split_ifs <;> first | exact Nat.zero_le _ | apply h

theorem drop_httpFindHdrValueEnd (quoted qdpair : Bool) (v : CStr) :
    v.drop (httpFindHdrValueEnd quoted qdpair v) = [] ∨
      ∃ r, v.drop (httpFindHdrValueEnd quoted qdpair v) = 44 :: r := by
  induction v generalizing quoted qdpair with
  | nil => exact .inl rfl
  | cons c v ih =>
    rw [httpFindHdrValueEnd]
    have h (quoted qdpair : Bool) :
        (c :: v).drop (1 + httpFindHdrValueEnd quoted qdpair v) = [] ∨
          ∃ r, (c :: v).drop (1 + httpFindHdrValueEnd quoted qdpair v) = 44 :: r := by
      rw [Nat.add_comm, List.drop_succ_cons]
      exact ih quoted qdpair
    split_ifs with _ _ _ _ _ hc
    · apply h
    · apply h
    · apply h
    · apply h
    · apply h
    · exact .inr ⟨v, by rw [hc]; rfl⟩
    · apply h

theorem httpFindHdrValueEnd_of_append {quoted qdpair : Bool} {v w : CStr}
    (h : httpFindHdrValueEnd quoted qdpair (v ++ w) = (v ++ w).length) :
    httpFindHdrValueEnd quoted qdpair v = v.length := by
  induction v generalizing quoted qdpair with
  | nil => rfl
  | cons c v ih =>
    rw [List.cons_append, httpFindHdrValueEnd, List.length_cons, Nat.add_comm (v ++ w).length] at h
    rw [httpFindHdrValueEnd, List.length_cons, Nat.add_comm v.length]
    have hnext {quoted qdpair : Bool} (h : 1 + httpFindHdrValueEnd quoted qdpair (v ++ w) =
        1 + (v ++ w).length) : 1 + httpFindHdrValueEnd quoted qdpair v = 1 + v.length := by
      rw [ih (Nat.add_left_cancel h)]
    split_ifs at h ⊢
    all_goals first | exact hnext h | omega

theorem OneElement.of_append {v w : CStr} (h : OneElement (v ++ w)) : OneElement v := by
  rw [OneElement] at h ⊢
  by_cases hv : ∀ c ∈ v, httpIsLws c = true
  · rw [List.dropWhile_eq_nil_iff.mpr hv]
    rfl
  · have hne : v.dropWhile httpIsLws ≠ [] := fun he => hv (List.dropWhile_eq_nil_iff.mp he)
    have happ : (v ++ w).dropWhile httpIsLws = v.dropWhile httpIsLws ++ w := by
      rw [List.dropWhile_append, List.isEmpty_eq_false_iff.mpr hne]
      rfl
    rw [happ] at h
    exact httpFindHdrValueEnd_of_append h

theorem httpReturnHdr_span (blk off : ℕ) (v : CStr) :
    (httpReturnHdr false blk off v).off - (httpReturnHdr false blk off v).lwsBefore = off ∧
      ∃ e, (httpReturnHdr false blk off v).lwsBefore + (httpReturnHdr false blk off v).len +
          (httpReturnHdr false blk off v).lwsAfter = e ∧
        (v.drop e = [] ∨ ∃ r, v.drop e = 44 :: r) ∧ (v.drop e = [] → OneElement v) := by
  have hle := httpFindHdrValueEnd_le false false (v.dropWhile httpIsLws)
  have hdrop := drop_httpFindHdrValueEnd false false (v.dropWhile httpIsLws)
  have hafter := (List.takeWhile_prefix httpIsLws (l := ((v.dropWhile httpIsLws).take
    (httpFindHdrValueEnd false false (v.dropWhile httpIsLws))).reverse)).length_le
  rw [List.length_reverse] at hafter
  have hsplit := List.takeWhile_append_dropWhile (p := httpIsLws) (l := v)
  simp only [httpReturnHdr, Bool.false_eq_true, if_false]
  refine ⟨Nat.add_sub_cancel _ _, (v.takeWhile httpIsLws).length +
    httpFindHdrValueEnd false false (v.dropWhile httpIsLws), ?_, ?_, ?_⟩
  · rw [Nat.add_assoc, Nat.sub_add_cancel hafter, List.length_take, Nat.min_eq_left hle]
  all_goals
    have hd : v.drop ((v.takeWhile httpIsLws).length +
        httpFindHdrValueEnd false false (v.dropWhile httpIsLws)) =
        (v.dropWhile httpIsLws).drop (httpFindHdrValueEnd false false (v.dropWhile httpIsLws)) := by
      conv_lhs => rw [← hsplit, List.drop_append]
      simp
    rw [hd]
  · exact hdrop
  · intro hnil
    exact Nat.le_antisymm hle (List.drop_eq_nil_iff.mp hnil)

/-! ### The block of the host header -/

section Blocks

variable {pre post : List (CStr × CStr)} {tl : List HtxBlk} {htx htx' : Htx} {q : CStr}

theorem httpScanHeader_skip {name : CStr} {full : Bool} {l r : List HtxBlk} (i : ℕ)
    (hl : ∀ b ∈ l, isteqi (htxGetBlkName b) name = false) :
    httpScanHeader name full i (l ++ r) = none ∨
      httpScanHeader name full i (l ++ r) = httpScanHeader name full (i + l.length) r := by
  induction l generalizing i with
  | nil => exact .inr rfl
  | cons b l ih =>
    have hb := hl b List.mem_cons_self
    have hnext := ih (i + 1) fun b hm => hl b (List.mem_cons_of_mem _ hm)
    rw [List.length_cons, ← Nat.add_assoc, Nat.add_right_comm]
    rw [List.cons_append, httpScanHeader, if_neg (Bool.eq_false_iff.mp hb), ite_self]
    split_ifs
    · exact .inl rfl
    · exact hnext

/-- The host header is the block behind the headers `pre`, whatever its length says:
its payload starts with the name, and then `q`. -/
def HostStarts (pre post : List (CStr × CStr)) (tl : List HtxBlk) (q : CStr) (htx : Htx) : Prop :=
  ∃ sl b, htx.blks = slBlk sl :: (pre.map hdrBlk ++ b :: (post.map hdrBlk ++ eohBlk :: tl)) ∧
    b.info % 2 ^ 8 = 4 ∧ bytes "host" ++ q <+: b.bytes

theorem HostStarts.find_blk (hs : HostStarts pre post tl q htx) (hpre : NoHost pre)
    (hpost : NoHost post) (hfpre : ∀ h ∈ pre, HdrFits h) (hfpost : ∀ h ∈ post, HdrFits h)
    {full : Bool} (hc : httpFindHeader htx (bytes "host") none full = some c) :
    c.blk = pre.length + 1 := by
  obtain ⟨sl, b, hblks, -, -⟩ := hs
  have hskip : ∀ b ∈ slBlk sl :: pre.map hdrBlk,
      isteqi (htxGetBlkName b) (bytes "host") = false := by
    intro b hm
    rcases List.mem_cons.mp hm with rfl | hm
    · -- a start line has no bytes to be a name
      have hname : htxGetBlkName (slBlk sl) = [] := by
        rw [htxGetBlkName, HtxBlk.bytes, slBlk]
        simp
      rw [hname]
      rfl
    · obtain ⟨h, hm', rfl⟩ := List.mem_map.mp hm
      rw [hdrBlk_name (hfpre h hm')]
      exact hpre h hm'
  rw [httpFindHeader, hblks, ← List.cons_append] at hc
  have hscan : httpScanHeader (bytes "host") full 0 (slBlk sl :: pre.map hdrBlk ++
      b :: (post.map hdrBlk ++ eohBlk :: tl)) = none ∨ _ := httpScanHeader_skip 0 hskip
  rcases hscan with hscan | hscan
  · rw [hscan] at hc
    cases hc
  · rw [hscan, httpScanHeader, httpScanHeader_noHost full hpost hfpost] at hc
    split_ifs at hc
    cases hc
    rw [List.length_cons, List.length_map, httpReturnHdr]
    exact Nat.zero_add _

theorem HostStarts.get (hs : HostStarts pre post tl q htx) :
    ∃ b, htx.blks[pre.length + 1]? = some b ∧ b.info % 2 ^ 8 = 4 ∧
      bytes "host" ++ q <+: b.bytes := by
  obtain ⟨sl, b, hblks, hinfo, hbytes⟩ := hs
  refine ⟨b, ?_, hinfo, hbytes⟩
  rw [hblks, List.getElem?_cons_succ, List.getElem?_append_right (by simp)]
  simp

theorem HtxBlk.infoWithLen_mod (hb : b.named = true) (len : ℕ) :
    b.infoWithLen len % 2 ^ 8 = b.info % 2 ^ 8 := by
  rw [HtxBlk.infoWithLen, if_pos hb]
  omega

theorem HtxBlk.named_of_value (hv : htxGetBlkValue b ≠ []) : b.named = true := by
  by_contra hb
  rw [htxGetBlkValue, if_neg hb] at hv
  exact hv rfl

theorem HostStarts.replaceBlkValue (hs : HostStarts pre post tl q htx)
    (hb : htx.blks[pre.length + 1]? = some b) (hn : b.named = true) {start len : ℕ} {new q' : CStr}
    (hr : htxReplaceBlkValue htx (pre.length + 1) start len new = some htx')
    (hq' : q' <+: (htxGetBlkValue b).take start ++ new ++ (htxGetBlkValue b).drop (start + len)) :
    HostStarts pre post tl q' htx' := by
  obtain ⟨sl, b', hblks, hinfo, hbytes⟩ := hs
  obtain ⟨b'', hb'', -⟩ := HostStarts.get ⟨sl, b', hblks, hinfo, hbytes⟩
  have hbb : b' = b := by
    rw [hblks, List.getElem?_cons_succ, List.getElem?_append_right (by simp)] at hb
    simpa using hb
  subst hbb
  have hname : htxGetBlkName b' = bytes "host" := by
    obtain ⟨r, hr'⟩ := (List.prefix_append (bytes "host") q).trans hbytes
    rw [htxGetBlkName, if_pos hn, hinfo, ← hr']
    rfl
  simp only [htxReplaceBlkValue, hb] at hr
  split_ifs at hr
  cases hr
  refine ⟨sl, ⟨b'.infoWithLen ((htxGetBlkValue b').length + new.length - len),
    .bytes (htxGetBlkName b' ++ (htxGetBlkValue b').take start ++ new ++
      (htxGetBlkValue b').drop (start + len))⟩, ?_, (HtxBlk.infoWithLen_mod hn _).trans hinfo, ?_⟩
  · show htx.blks.set _ _ = _
    rw [hblks, List.set_cons_succ, List.set_append_right _ _ (by simp)]
    simp
  · show bytes "host" ++ q' <+: htxGetBlkName b' ++ _ ++ new ++ _
    rw [hname, List.append_assoc, List.append_assoc, List.prefix_append_right_inj,
      ← List.append_assoc]
    exact hq'

theorem HostStarts.updateAuthority (hs : HostStarts pre post tl q htx) {sl : HtxSl}
    {host : CStr} (hu : httpUpdateAuthority htx sl host = some htx') :
    HostStarts pre post tl q htx' := by
  obtain ⟨sl', b, hblks, hinfo, hbytes⟩ := hs
  simp only [httpUpdateAuthority] at hu
  split_ifs at hu
  · cases hu
    exact ⟨sl', b, hblks, hinfo, hbytes⟩
  · -- only the start line is replaced
    rw [httpReplaceStline, hblks] at hu
    simp only [slBlk] at hu
    split_ifs at hu
    cases hu
    exact ⟨_, b, rfl, hinfo, hbytes⟩

end Blocks

/-! ### The loop over the host headers -/

section Loop

variable {pre post : List (CStr × CStr)} {tl : List HtxBlk} {htx htx' : Htx} {q : CStr}
variable (hpre : NoHost pre) (hpost : NoHost post) (hfpre : ∀ h ∈ pre, HdrFits h)
  (hfpost : ∀ h ∈ post, HdrFits h)
include hpre hpost hfpre hfpost

/-- The part of `http_replace_header_value` behind the replacement. -/
theorem HostStarts.replaceHeaderValue {data : CStr} {ctx' : Option HttpHdrCtx}
    (hblk : c.blk = pre.length + 1)
    (h1 : ∀ htx1, htxReplaceBlkValue htx (pre.length + 1) (c.off - c.lwsBefore)
      (c.lwsBefore + c.len + c.lwsAfter) data = some htx1 → HostStarts pre post tl q htx1)
    (hr : httpReplaceHeaderValue htx c data = (htx', ctx')) :
    htx' = htx ∧ ctx' = none ∨
      HostStarts pre post tl q htx' ∧
        (ctx' = none ∨ ctx' = some ⟨pre.length + 1, c.off - c.lwsBefore, data.length, 0, 0⟩) := by
  simp only [httpReplaceHeaderValue, hblk] at hr
  split at hr
  next =>
    cases hr
    exact .inl ⟨rfl, rfl⟩
  next htx1 hrep =>
    have hs1 := h1 htx1 hrep
    right
    split at hr
    next sl _ =>
      split_ifs at hr
      · split at hr
        next =>
          cases hr
          exact ⟨hs1, .inl rfl⟩
        next htx2 hu =>
          have hs2 := hs1.updateAuthority hu
          cases hr
          refine ⟨hs2, ?_⟩
          rcases hf : httpFindHeader htx' (bytes "host") none true with - | c'
          · exact .inl rfl
          · rw [Option.map_some, hs2.find_blk hpre hpost hfpre hfpost hf]
            exact .inr rfl
      · cases hr
        exact ⟨hs1, .inr rfl⟩
    next =>
      cases hr
      exact ⟨hs1, .inr rfl⟩

omit hpre hpost hfpre hfpost in
theorem HostStarts.value (hs : HostStarts pre post tl q htx) :
    ∃ b, htx.blks[pre.length + 1]? = some b ∧
      (q.length ≤ (htxGetBlkValue b).length → htxGetBlkValue b ≠ [] → q <+: htxGetBlkValue b) := by
  obtain ⟨b, hb, hinfo, hbytes⟩ := hs.get
  refine ⟨b, hb, fun hlen hne => ?_⟩
  have hn := HtxBlk.named_of_value hne
  rw [htxGetBlkValue, if_pos hn, hinfo] at hlen ⊢
  rw [List.length_take] at hlen
  obtain ⟨r, hr⟩ := hbytes
  rw [List.prefix_take_iff]
  refine ⟨⟨r, ?_⟩, Nat.le_trans hlen (Nat.min_le_left _ _)⟩
  rw [← hr, List.append_assoc]
  rfl

omit hpre hfpre in
theorem HostStarts.findHeader_next (hs : HostStarts pre post tl q htx) {o l : ℕ}
    (hc : httpFindHeader htx (bytes "host") (some ⟨pre.length + 1, o, l, 0, 0⟩) false = some c) :
    ∃ b s w, htx.blks[pre.length + 1]? = some b ∧ htxGetBlkValue b ≠ [] ∧
      o + l < (htxGetBlkValue b).length ∧ c = httpReturnHdr false (pre.length + 1) s w ∧
      (s = o + l ∧ (htxGetBlkValue b)[o + l]? ≠ some 44 ∨ s = o + l + 1) := by
  obtain ⟨b, hb, -⟩ := hs.get
  obtain ⟨sl, b', hblks, -⟩ := hs
  have hdrop : htx.blks.drop (pre.length + 1 + 1) = post.map hdrBlk ++ eohBlk :: tl := by
    rw [hblks, List.drop_succ_cons, ← List.singleton_append, ← List.append_assoc, List.drop_append]
    simp
  simp only [httpFindHeader, Bool.false_eq_true, if_false, hdrop,
    httpScanHeader_noHost false hpost hfpost, hb, Option.map_some, Option.getD_some] at hc
  split at hc
  next => cases hc
  next ch w hv =>
    have hne : htxGetBlkValue b ≠ [] := by
      intro he
      rw [he, List.drop_nil] at hv
      cases hv
    have hlt : o + l < (htxGetBlkValue b).length := by
      by_contra hge
      rw [Nat.add_zero, List.drop_eq_nil_of_le (Nat.not_lt.mp hge)] at hv
      cases hv
    cases hc
    split_ifs with hch
    · exact ⟨b, o + l + 1, w, hb, hne, hlt, rfl, .inr rfl⟩
    · refine ⟨b, o + l, ch :: w, hb, hne, hlt, rfl, .inl ⟨rfl, ?_⟩⟩
      have hget := congrArg (·[0]?) hv
      simp only [List.getElem?_drop, List.getElem?_cons_zero, Nat.add_zero] at hget
      rw [hget]
      simpa using hch

/-- The context is behind `q`, or in front of the comma that `q` ends with. -/
def Behind (q : CStr) (p : ℕ) : Prop := q.length ≤ p ∨ ∃ q0, q = q0 ++ [44] ∧ p = q0.length

/-- The loop writes only behind `q`. -/
theorem HostStarts.replaceHosts {data : ℕ → CStr} {fuel k o l : ℕ}
    (hs : HostStarts pre post tl q htx) (hp : Behind q (o + l))
    (hr : SmartHAProxy.replaceHosts data fuel k htx (some ⟨pre.length + 1, o, l, 0, 0⟩) =
      some htx') : HostStarts pre post tl q htx' := by
  induction fuel generalizing k htx o l with
  | zero => cases hr
  | succ fuel ih =>
    rw [SmartHAProxy.replaceHosts] at hr
    rcases hf : httpFindHeader htx (bytes "host") (some ⟨pre.length + 1, o, l, 0, 0⟩) false
      with - | c
    · simp only [hf] at hr
      cases hr
      exact hs
    obtain ⟨b, s, w, hb, hne, hlt, rfl, hs'⟩ := hs.findHeader_next hpost hfpost hf
    obtain ⟨b', hb', hval⟩ := hs.value
    obtain rfl : b = b' := Option.some.inj (hb.symm.trans hb')
    -- what is replaced starts behind `q`
    have hqs : q.length ≤ s := by
      rcases hp with hp | ⟨q0, rfl, hp⟩
      · rcases hs' with ⟨rfl, -⟩ | rfl <;> omega
      · have hlen : (q0 ++ [(44 : UInt8)]).length = o + l + 1 := by
          rw [List.length_append, List.length_singleton, hp]
        rcases hs' with ⟨rfl, hcomma⟩ | rfl
        · obtain ⟨r, hr'⟩ := hval (by omega) hne
          refine absurd ?_ hcomma
          rw [← hr', List.append_assoc, hp, List.getElem?_append_right (Nat.le_refl _),
            Nat.sub_self]
          rfl
        · exact Nat.le_of_eq hlen
    have hsle : s ≤ (htxGetBlkValue b).length := by
      rcases hs' with ⟨rfl, -⟩ | rfl <;> omega
    have hpref := hval (Nat.le_trans hqs hsle) hne
    obtain ⟨hstart, -⟩ := httpReturnHdr_span (pre.length + 1) s w
    rcases hrep : httpReplaceHeaderValue htx (httpReturnHdr false (pre.length + 1) s w) (data k)
      with ⟨htx1, ctx1⟩
    have hwrite : ∀ htx1, htxReplaceBlkValue htx (pre.length + 1)
        ((httpReturnHdr false (pre.length + 1) s w).off -
          (httpReturnHdr false (pre.length + 1) s w).lwsBefore)
        ((httpReturnHdr false (pre.length + 1) s w).lwsBefore +
          (httpReturnHdr false (pre.length + 1) s w).len +
          (httpReturnHdr false (pre.length + 1) s w).lwsAfter) (data k) = some htx1 →
        HostStarts pre post tl q htx1 := by
      intro htx1 h1
      apply hs.replaceBlkValue hb (HtxBlk.named_of_value hne) h1
      rw [hstart, List.append_assoc]
      refine List.IsPrefix.trans ?_ (List.prefix_append _ _)
      rw [List.prefix_take_iff]
      exact ⟨hpref, hqs⟩
    have h1 := HostStarts.replaceHeaderValue hpre hpost hfpre hfpost rfl hwrite hrep
    simp only [hf, hrep] at hr
    rcases h1 with ⟨rfl, rfl⟩ | ⟨hs1, rfl | rfl⟩
    · cases hr
      exact hs
    · cases hr
      exact hs1
    · refine ih hs1 (.inl ?_) hr
      rw [hstart]
      omega

end Loop

/-! ### The whole normalization -/

section Run

variable {pre post : List (CStr × CStr)} {tl : List HtxBlk} {htx htx' : Htx} {sl : HtxSl}
  {a : CStr}

namespace Htx.Holds

theorem hostStarts (hh : htx.Holds sl (pre ++ (bytes "host", a) :: post) (eohBlk :: tl)) :
    HostStarts pre post tl a htx := by
  have hf : HdrFits (bytes "host", a) := hh.fits _ (by simp)
  refine ⟨sl, hdrBlk (bytes "host", a), ?_, hdrBlk_nameLen hf, List.prefix_rfl⟩
  rw [hh.blks]
  simp

theorem hostStarts_prefix (hh : htx.Holds sl (pre ++ (bytes "host", a) :: post) (eohBlk :: tl))
    {q : CStr} (hs : HostStarts pre post tl q htx) : q <+: a := by
  obtain ⟨b, hb, -, hbytes⟩ := hs.get
  rw [hh.blks_get] at hb
  cases hb
  exact (List.prefix_append_right_inj _).mp hbytes

variable (hpre : NoHost pre) (hpost : NoHost post)
include hpre hpost

/-- **What the loop makes of the host header**: nothing, or it writes the first data
over the first element of the value, and leaves both this and the comma behind it. -/
theorem replaceHosts_first
    (hh : htx.Holds sl (pre ++ (bytes "host", a) :: post) (eohBlk :: tl))
    {data : ℕ → CStr} {fuel : ℕ}
    (hr : SmartHAProxy.replaceHosts data fuel 0 htx none = some htx') :
    htx' = htx ∨ ∃ w, (w = [] → OneElement a) ∧ HostStarts pre post tl (data 0 ++ w) htx' := by
  have hfpre : ∀ h ∈ pre, HdrFits h := fun h hm => hh.fits h (List.mem_append_left _ hm)
  have hfpost : ∀ h ∈ post, HdrFits h := fun h hm => hh.fits h (by simp [hm])
  have hf : HdrFits (bytes "host", a) := hh.fits _ (by simp)
  obtain ⟨hstart, e, hlen, hdrop, hone⟩ := httpReturnHdr_span (pre.length + 1) 0 a
  cases fuel with
  | zero => cases hr
  | succ fuel =>
    rw [SmartHAProxy.replaceHosts, hh.findHeader_first hpre false] at hr
    simp only at hr
    rcases hrep : httpReplaceHeaderValue htx (httpReturnHdr false (pre.length + 1) 0 a) (data 0)
      with ⟨htx1, ctx1⟩
    have hwrite : ∀ htx1, htxReplaceBlkValue htx (pre.length + 1)
        ((httpReturnHdr false (pre.length + 1) 0 a).off -
          (httpReturnHdr false (pre.length + 1) 0 a).lwsBefore)
        ((httpReturnHdr false (pre.length + 1) 0 a).lwsBefore +
          (httpReturnHdr false (pre.length + 1) 0 a).len +
          (httpReturnHdr false (pre.length + 1) 0 a).lwsAfter) (data 0) = some htx1 →
        HostStarts pre post tl (data 0 ++ (a.drop e).take 1) htx1 := by
      intro htx1 h1
      apply hh.hostStarts.replaceBlkValue hh.blks_get (hdrBlk_named hf) h1
      rw [hstart, hlen, hdrBlk_value hf, List.take_zero, List.nil_append, Nat.zero_add,
        List.prefix_append_right_inj]
      exact List.take_prefix _ _
    have h1 := HostStarts.replaceHeaderValue hpre hpost hfpre hfpost rfl hwrite hrep
    simp only [hrep] at hr
    have hw : (a.drop e).take 1 = [] → OneElement a := by
      rcases hdrop with hnil | ⟨r, hr'⟩
      · exact fun _ => hone hnil
      · rw [hr']
        intro h
        exact absurd h (List.cons_ne_nil _ _)
    rcases h1 with ⟨rfl, rfl⟩ | ⟨hs1, rfl | rfl⟩
    · cases hr
      exact .inl rfl
    · cases hr
      exact .inr ⟨_, hw, hs1⟩
    · refine .inr ⟨_, hw, hs1.replaceHosts hpre hpost hfpre hfpost ?_ hr⟩
      rw [hstart, Nat.zero_add]
      rcases hdrop with hnil | ⟨r, hr'⟩
      · left
        simp [hnil]
      · right
        rw [hr']
        exact ⟨data 0, rfl, rfl⟩

/-- **The loop on a value of one element**, which becomes the authority of the URI. -/
theorem replaceHosts_good {host : CStr} {pathPre path : CStr}
    (hh : htx.Holds sl (pre ++ (bytes "host", a) :: post) (eohBlk :: tl)) (ha : OneElement a)
    (hlen : host.length ≤ a.length) (huri : httpUriAuthority sl.p2 = (pathPre, host, path)) :
    ∃ htx1, htx1.Holds sl (pre ++ (bytes "host", host) :: post) (eohBlk :: tl) ∧
      ∀ data : ℕ → CStr, data 0 = host →
        SmartHAProxy.replaceHosts data 2 0 htx none = some htx1 ∧
        ∀ fuel htx', SmartHAProxy.replaceHosts data fuel 0 htx none = some htx' →
          htx' = htx1 := by
  obtain ⟨hblk, hoff, hspan⟩ := httpReturnHdr_whole ha (pre.length + 1)
  obtain ⟨htx1, hr, h1⟩ := hh.replaceBlkValue hlen
  have hst : httpGetStline htx1 = some sl := by
    rw [httpGetStline, h1.blks]
    rfl
  have hfw : HdrFits (bytes "host", host) := h1.fits _ (by simp)
  have hu : httpUpdateAuthority htx1 sl host = none ∨
      httpUpdateAuthority htx1 sl host = some htx1 := by
    simp only [httpUpdateAuthority, huri, if_true]
    split_ifs
    · exact .inl rfl
    · exact .inr rfl
  -- the first turn writes the host, and leaves the URI as it is
  have hrep : ∃ ctx', httpReplaceHeaderValue htx (httpReturnHdr false (pre.length + 1) 0 a) host =
      (htx1, ctx') ∧ (ctx' = none ∨ ctx' = some ⟨pre.length + 1, 0, host.length, 0, 0⟩) := by
    simp only [httpReplaceHeaderValue, hblk, hoff, hspan, hr, hst, h1.blks_get, Option.map_some,
      Option.getD_some, hdrBlk_name hfw, hdrBlk_value hfw, and_true]
    split_ifs
    · rcases hu with hu | hu <;> rw [hu]
      · exact ⟨none, rfl, .inl rfl⟩
      · refine ⟨_, rfl, .inr ?_⟩
        rw [h1.findHeader_first hpre true]
        rfl
    · exact ⟨_, rfl, .inr rfl⟩
  obtain ⟨ctx', hrep, hctx⟩ := hrep
  refine ⟨htx1, h1, fun data hdata => ?_⟩
  have hturn (fuel : ℕ) : SmartHAProxy.replaceHosts data (fuel + 1) 0 htx none =
      ctx'.elim (some htx1) fun c' =>
        SmartHAProxy.replaceHosts data fuel (0 + 1) htx1 (some c') := by
    rw [SmartHAProxy.replaceHosts, hh.findHeader_first hpre false]
    simp only [hdata, hrep]
    rcases hctx with rfl | rfl <;> rfl
  -- the second turn finds no other host header
  have hnext (fuel : ℕ) : SmartHAProxy.replaceHosts data (fuel + 2) 0 htx none = some htx1 := by
    rw [hturn]
    rcases hctx with rfl | rfl
    · rfl
    · simp only [Option.elim_some, SmartHAProxy.replaceHosts, h1.findHeader_next hpost]
  refine ⟨hnext 0, fun fuel htx' hrun => ?_⟩
  rcases fuel with - | - | fuel
  · cases hrun
  · rw [hturn] at hrun
    rcases hctx with rfl | rfl
    · exact (Option.some.inj hrun).symm
    · cases hrun
  · rw [hnext] at hrun
    exact (Option.some.inj hrun).symm

omit hpre hpost in
theorem stline_unique {sl' : HtxSl} {hdrs' : List (CStr × CStr)} {tl' : List HtxBlk}
    (hh : htx.Holds sl hdrs tl) (hh' : htx.Holds sl' hdrs' tl') : sl = sl' := by
  have h := hh.blks.symm.trans hh'.blks
  exact HtxPayload.sl.inj (congrArg HtxBlk.payload (List.cons.inj h).1)

omit hpre hpost in
theorem host_unique {sl' : HtxSl} {a' : CStr}
    (hh : htx.Holds sl (pre ++ (bytes "host", a) :: post) (eohBlk :: tl))
    (hh' : htx.Holds sl' (pre ++ (bytes "host", a') :: post) (eohBlk :: tl)) : a = a' :=
  have h1 := hh'.hostStarts_prefix hh.hostStarts
  have h2 := hh.hostStarts_prefix hh'.hostStarts
  h1.eq_of_length (Nat.le_antisymm h1.length_le h2.length_le)

omit hpre hpost in
theorem getStline (hh : htx.Holds sl hdrs tl) : httpGetStline htx = some sl := by
  rw [httpGetStline, hh.blks]
  rfl

omit hpre hpost in
theorem normalize_none (hh : htx.Holds sl hdrs tl) (hn : httpDefaultPort sl.p2 = none)
    (stale : ℕ → CStr) (fuel : ℕ) : httpSchemeBasedNormalize stale fuel htx = some htx := by
  simp only [httpSchemeBasedNormalize, hh.getStline, hn]
  split_ifs <;> rfl

omit hpre hpost in
theorem normalize_some (hh : htx.Holds sl hdrs tl)
    (hflags : sl.flags.hasSchm = true ∨ sl.flags.hasAuthority = true) {scheme host path : CStr}
    (hd : httpDefaultPort sl.p2 = some (scheme, host, path)) :
    ∃ htx1, htx1.Holds { sl with p2 := scheme ++ host ++ path } hdrs tl ∧
      ∀ stale fuel, httpSchemeBasedNormalize stale fuel htx =
        SmartHAProxy.replaceHosts (fun k => if k = 0 then host else stale k) fuel 0 htx1 none := by
  have hle := httpDefaultPort_length hd
  obtain ⟨htx1, h1⟩ := hh.replaceStline_isSome sl.p1 (scheme ++ host ++ path) sl.p3 (by
    simp only [HtxSl.size]
    omega)
  refine ⟨htx1, hh.replaceStline h1, fun stale fuel => ?_⟩
  have hf : (sl.flags.hasSchm || sl.flags.hasAuthority) = true := by
    rw [Bool.or_eq_true]
    exact hflags
  simp only [httpSchemeBasedNormalize, hh.getStline, hf, if_true, hd, h1, Option.getD_some]

end Htx.Holds

end Run

/-! ### The exact condition -/

/-- A normalization gives the start line `sl` and the headers `hdrs`, and another one
leaves the message as it is. -/
def NormalizedTo (stale : ℕ → CStr) (htx : Htx) (sl : HtxSl) (hdrs : List (CStr × CStr))
    (tl : List HtxBlk) : Prop :=
  ∃ fuel htx', httpSchemeBasedNormalize stale fuel htx = some htx' ∧ htx'.Holds sl hdrs tl ∧
    ∀ stale', ∃ fuel', httpSchemeBasedNormalize stale' fuel' htx' = some htx'

/-- The default port can be taken off: if the authority, or the text up to the first "/",
ends in one, then these two are the same, without user info and unquoted commas, and
the host in front of the port does not end in the default port again. -/
def PortRemovable (scheme rest : CStr) : Prop :=
  EndsInDefault scheme (hostPort (uriAuthority rest)) ∨
      EndsInDefault scheme (httpParseAuthority rest).1 →
    userInfo (uriAuthority rest) = [] ∧ uriAuthority rest = (httpParseAuthority rest).1 ∧
      OneElement (uriAuthority rest) ∧
      ¬ EndsInDefault scheme (dropDefaultPort scheme (uriAuthority rest))

instance PortRemovable.decidable (scheme rest : CStr) : Decidable (PortRemovable scheme rest) :=
  inferInstanceAs (Decidable (_ → _))

section Main

variable {pre post : List (CStr × CStr)} {tl : List HtxBlk} {htx : Htx} {sl : HtxSl}
  {scheme rest host path : CStr}

theorem normalUri_plain (hu : userInfo (uriAuthority rest) = [])
    (heq : uriAuthority rest = (httpParseAuthority rest).1)
    (ha : (httpParseAuthority rest).1 = host ++ defaultPort scheme) :
    hostPort (uriAuthority rest) = host ++ defaultPort scheme ∧ (∀ c ∈ host, c ≠ 64) ∧
      normalUri scheme rest = scheme ++ host ++ (httpParseAuthority rest).2 := by
  have happ := userInfo_append (uriAuthority rest)
  rw [hu, List.nil_append] at happ
  have hhp := (happ.trans heq).trans ha
  obtain ⟨query, hq, htail, -⟩ := httpParseAuthority_eq rest
  have hqnil : query = [] := by
    rw [← heq] at hq
    simpa using hq
  rw [hqnil, List.nil_append] at htail
  refine ⟨hhp, fun c hc => ?_, ?_⟩
  · have hmem : c ∈ hostPort (uriAuthority rest) := by
      rw [hhp]
      exact List.mem_append_left _ hc
    rw [hostPort, List.mem_reverse] at hmem
    simpa using List.mem_takeWhile_imp hmem
  · rw [normalUri, hu, hhp, dropDefaultPort_append, htail, List.append_nil]

variable (hpre : NoHost pre) (hpost : NoHost post)
include hpre hpost

theorem Htx.Holds.normalize_good {authority : CStr}
    (hh : htx.Holds sl (pre ++ (bytes "host", authority) :: post) (eohBlk :: tl))
    (hflags : sl.flags.hasSchm = true ∨ sl.flags.hasAuthority = true)
    (huri : httpParseScheme sl.p2 = some (scheme, rest))
    (hd : httpDefaultPort sl.p2 = some (scheme, host, path))
    (ha : authority = host ++ defaultPort scheme) (hone : OneElement authority)
    (hat : ∀ c ∈ host, c ≠ 64) :
    ∃ htx', htx'.Holds { sl with p2 := scheme ++ host ++ path }
        (pre ++ (bytes "host", host) :: post) (eohBlk :: tl) ∧
      (∀ stale, httpSchemeBasedNormalize stale 2 htx = some htx') ∧
      ∀ stale fuel htx'', httpSchemeBasedNormalize stale fuel htx = some htx'' → htx'' = htx' := by
  obtain ⟨-, hparts, hpath⟩ := (httpDefaultPort_iff huri).mp hd
  obtain ⟨hslash, hshape⟩ := httpParseAuthority_parts rest
  rw [hparts] at hslash
  rw [hpath] at hshape
  obtain ⟨htx1, h1, hrun⟩ := hh.normalize_some hflags hd
  have hlen : host.length ≤ authority.length := by
    rw [ha, List.length_append]
    exact Nat.le_add_right _ _
  have hua : httpUriAuthority (scheme ++ host ++ path) = (scheme, host, path) := by
    rw [List.append_assoc]
    exact httpUriAuthority_append huri
      (fun c hc => ⟨hslash c (List.mem_append_left _ hc), hat c hc⟩) hshape
  obtain ⟨htx', h', hloop⟩ := h1.replaceHosts_good hpre hpost hone hlen hua
  refine ⟨htx', h', fun stale => ?_, fun stale fuel htx'' hr => ?_⟩
  · rw [hrun]
    exact (hloop _ rfl).1
  · rw [hrun] at hr
    exact (hloop _ rfl).2 fuel htx'' hr

variable (hh : htx.Holds sl (pre ++ (bytes "host", hostPort (uriAuthority rest)) :: post)
    (eohBlk :: tl))
  (hflags : sl.flags.hasSchm = true ∨ sl.flags.hasAuthority = true)
  (huri : httpParseScheme sl.p2 = some (scheme, rest))
include hh hflags huri

theorem normalized_of_portRemovable (hp : PortRemovable scheme rest) :
    NormalizedTo stale htx { sl with p2 := normalUri scheme rest }
      (pre ++ (bytes "host", dropDefaultPort scheme (hostPort (uriAuthority rest))) :: post)
      (eohBlk :: tl) := by
  have hscheme := httpParseScheme_append huri
  rcases hd : httpDefaultPort sl.p2 with - | ⟨scheme', host, path⟩
  · -- nothing is done, and nothing is to be done
    have hnot : ¬ EndsInDefault scheme (hostPort (uriAuthority rest)) := by
      intro hends
      have hno := (httpDefaultPort_eq_none huri).mp hd
      obtain ⟨hu, heq, -⟩ := hp (.inl hends)
      have happ := userInfo_append (uriAuthority rest)
      rw [hu, List.nil_append] at happ
      rw [happ, heq] at hends
      exact hno hends
    rw [dropDefaultPort_of_not hnot, normalUri_eq_self_iff.mpr hnot, hscheme]
    exact ⟨0, htx, hh.normalize_none hd stale 0, hh, fun stale' =>
      ⟨0, hh.normalize_none hd stale' 0⟩⟩
  · obtain rfl := httpDefaultPort_scheme huri hd
    obtain ⟨hne, ha, hpath⟩ := (httpDefaultPort_iff huri).mp hd
    obtain ⟨hu, heq, hone, hagain⟩ := hp (.inr ⟨hne, host, ha.symm⟩)
    obtain ⟨hhp, hat, hnormal⟩ := normalUri_plain hu heq ha
    rw [heq, ha] at hone
    rw [heq, ha, dropDefaultPort_append] at hagain
    rw [hhp] at hh
    obtain ⟨htx', h', hrun, -⟩ := hh.normalize_good hpre hpost hflags huri hd rfl hone hat
    rw [hhp, dropDefaultPort_append, hnormal, hpath]
    refine ⟨2, htx', hrun stale, h', fun stale' => ⟨0, h'.normalize_none ?_ stale' 0⟩⟩
    -- the second time, there is no default port
    obtain ⟨hslash, hshape⟩ := httpParseAuthority_parts rest
    rw [ha] at hslash
    rw [hpath] at hshape
    show httpDefaultPort (scheme' ++ host ++ path) = none
    rw [List.append_assoc, httpDefaultPort_eq_none (httpParseScheme_of_scheme huri _).1,
      httpParseAuthority_append (fun c hc => hslash c (List.mem_append_left _ hc)) hshape]
    exact hagain

theorem portRemovable_of_normalized
    (hn : NormalizedTo stale htx { sl with p2 := normalUri scheme rest }
      (pre ++ (bytes "host", dropDefaultPort scheme (hostPort (uriAuthority rest))) :: post)
      (eohBlk :: tl)) : PortRemovable scheme rest := by
  obtain ⟨fuel, htx', hr, h', hsecond⟩ := hn
  have hscheme := httpParseScheme_append huri
  rcases hd : httpDefaultPort sl.p2 with - | ⟨scheme', host, path⟩
  · rw [hh.normalize_none hd] at hr
    cases hr
    have huri' := congrArg HtxSl.p2 (hh.stline_unique h')
    have hnot := normalUri_eq_self_iff.mp (huri'.symm.trans hscheme.symm)
    rintro (hends | hends)
    · exact absurd hends hnot
    · exact absurd hends ((httpDefaultPort_eq_none huri).mp hd)
  obtain rfl := httpDefaultPort_scheme huri hd
  obtain ⟨hne, ha, hpath⟩ := (httpDefaultPort_iff huri).mp hd
  obtain ⟨htx1, h1, hrun⟩ := hh.normalize_some hflags hd
  rw [hrun] at hr
  rcases h1.replaceHosts_first hpre hpost hr with rfl | ⟨w, hone, hs⟩
  · -- the host header is as it was, and the URI is not
    exfalso
    have hnot := dropDefaultPort_eq_self (h'.host_unique h1)
    have huri' := congrArg HtxSl.p2 (h1.stline_unique h')
    have hsame : scheme' ++ host ++ path = scheme' ++ rest :=
      huri'.trans (normalUri_eq_self_iff.mpr hnot)
    have hrest : rest = host ++ defaultPort scheme' ++ path := by
      rw [← ha, ← hpath]
      exact (List.takeWhile_append_dropWhile).symm
    rw [hrest] at hsame
    have hlen := congrArg List.length hsame
    simp only [List.length_append] at hlen
    have := List.length_pos_iff.mpr hne
    omega
  · obtain ⟨hu, heq, rfl⟩ := removed_host hne ha (h'.hostStarts_prefix hs)
    intro _
    have hone' := hone rfl
    obtain ⟨hhp, hat, hnormal⟩ := normalUri_plain hu heq ha
    refine ⟨hu, heq, ?_, fun hends => ?_⟩
    · rw [heq, ha, ← hhp]
      exact hone'
    · -- the port is there again, and the second normalization takes it off
      rw [heq, ha, dropDefaultPort_append] at hends
      obtain ⟨-, host', hport⟩ := hends
      obtain ⟨hslash, hshape⟩ := httpParseAuthority_parts rest
      rw [ha] at hslash
      rw [hpath] at hshape hnormal
      rw [hhp, dropDefaultPort_append, hnormal] at h'
      have huri' := (httpParseScheme_of_scheme huri (host ++ path)).1
      have hd' : httpDefaultPort (scheme' ++ host ++ path) = some (scheme', host', path) := by
        rw [List.append_assoc, httpDefaultPort_iff huri', httpParseAuthority_append
          (fun c hc => hslash c (List.mem_append_left _ hc)) hshape]
        exact ⟨hne, hport.symm, rfl⟩
      rw [← List.append_assoc] at huri'
      rw [hhp] at hone'
      obtain ⟨htx'', h'', -, hagain⟩ := h'.normalize_good hpre hpost hflags huri' hd' hport.symm
        hone'.of_append fun c hc => hat c (by
          rw [← hport]
          exact List.mem_append_left _ hc)
      obtain ⟨fuel', hr'⟩ := hsecond stale
      rw [← hagain stale fuel' htx' hr'] at h''
      have hlen := congrArg List.length (hport.trans (h'.host_unique h''))
      rw [List.length_append] at hlen
      have := List.length_pos_iff.mpr hne
      omega

/-- **The normalization takes off the default port and nothing else**, exactly if the port
can be taken off. -/
theorem schemeNormalized_iff :
    NormalizedTo stale htx { sl with p2 := normalUri scheme rest }
        (pre ++ (bytes "host", dropDefaultPort scheme (hostPort (uriAuthority rest))) :: post)
        (eohBlk :: tl) ↔
      PortRemovable scheme rest :=
  ⟨portRemovable_of_normalized hpre hpost hh hflags huri,
    normalized_of_portRemovable hpre hpost hh hflags huri⟩

end Main

/-! ### Two requests -/

/-- A start line "GET" with an absolute URI. -/
def absoluteSl (uri : CStr) : HtxSl :=
  ⟨{ hasSchm := true, schmHttp := true, hasAuthority := true }, .get, bytes "GET", uri,
    bytes "HTTP/1.1"⟩

/-- A request with this start line and a host header. -/
def absoluteRequest (uri host : CStr) : Htx :=
  ⟨16384, (absoluteSl uri).size + (4 + host.length) + 1,
    [slBlk (absoluteSl uri), hdrBlk (bytes "host", host), eohBlk], false, true⟩

theorem absoluteRequest_holds {uri host : CStr} (huri : uri.length ≤ 1000)
    (hhost : host.length ≤ 1000) : (absoluteRequest uri host).Holds (absoluteSl uri)
      ([] ++ (bytes "host", host) :: []) (eohBlk :: []) where
  blks := rfl
  size := by
    show 16384 < 2 ^ 28
    omega
  fits h hm := by
    rw [List.nil_append, List.mem_singleton] at hm
    rw [hm]
    exact ⟨by show 4 ≤ 255; omega, Nat.le_trans hhost (by omega)⟩
  data := by
    show _ + (4 + host.length) ≤ _
    simp only [absoluteRequest]
    omega
  room := by
    show 20 + 3 + uri.length + 8 + (4 + host.length) + 1 + 3 * 8 ≤ 16384
    omega

theorem noHost_nil : NoHost [] := fun _ hm => absurd hm List.not_mem_nil

/-- "http://[::1]:80/a" loses its port. -/
theorem schemeNormalized_literal :
    NormalizedTo (fun _ => []) (absoluteRequest (bytes "http://[::1]:80/a") (bytes "[::1]:80"))
      (absoluteSl (bytes "http://[::1]/a")) [(bytes "host", bytes "[::1]")] [eohBlk] :=
  have hh : (absoluteRequest (bytes "http://[::1]:80/a") (bytes "[::1]:80")).Holds
      (absoluteSl (bytes "http://[::1]:80/a"))
      ([] ++ (bytes "host", hostPort (uriAuthority (bytes "[::1]:80/a"))) :: []) (eohBlk :: []) :=
    absoluteRequest_holds (by decide) (by decide)
  have huri : httpParseScheme (bytes "http://[::1]:80/a") =
      some (bytes "http://", bytes "[::1]:80/a") := rfl
  (schemeNormalized_iff noHost_nil noHost_nil hh (.inl rfl) huri).mpr (by decide)

/-- "http://user@h:80/" does not: the host header becomes "user@h". -/
theorem not_schemeNormalized :
    hostPort (uriAuthority (bytes "user@h:80/")) = bytes "h:80" ∧
    ¬ NormalizedTo (fun _ => []) (absoluteRequest (bytes "http://user@h:80/") (bytes "h:80"))
      (absoluteSl (bytes "http://user@h/")) [(bytes "host", bytes "h")] [eohBlk] := by
  have hh : (absoluteRequest (bytes "http://user@h:80/") (bytes "h:80")).Holds
      (absoluteSl (bytes "http://user@h:80/"))
      ([] ++ (bytes "host", hostPort (uriAuthority (bytes "user@h:80/"))) :: []) (eohBlk :: []) :=
    absoluteRequest_holds (by decide) (by decide)
  have huri : httpParseScheme (bytes "http://user@h:80/") =
      some (bytes "http://", bytes "user@h:80/") := rfl
  refine ⟨by decide, fun hn => ?_⟩
  have hp := portRemovable_of_normalized noHost_nil noHost_nil hh (.inl rfl) huri hn
  exact absurd hp (by decide)

example : (httpSchemeBasedNormalize (fun _ => []) 2
    (absoluteRequest (bytes "http://user@h:80/") (bytes "h:80"))).map
      (fun htx => (htx.headers, httpGetStline htx)) =
    some ([(bytes "host", bytes "user@h")],
      some (absoluteSl (bytes "http://user@user@h/"))) := by decide

end SmartHAProxy
