/-
The framing of the messages that `h1_headers_to_hdr_list` accepts.

While the headers are parsed, the flags follow from the fields so far, and the
list has the same unnamed and Content-Length entries as they, as long as no
length is known (`Framing`).  Every label keeps this (`byte_safe`), so that
at the end the flags, the state and the list can be told from the fields
(`Exclusive`).

`h1_framing_iff`: a Content-Length stays in the list next to a
Transfer-Encoding exactly if every Content-Length of the message is blank, and one of them
stands before the first field without a name, where the list ends.
-/
import SmartHAProxy.H1.Fields

namespace SmartHAProxy

variable {h1m : H1m} {state : H1mState} {c : UInt8}

/-! ### Lists of headers -/

namespace HttpHdr

def isTe (h : HttpHdr) : Bool := isteqi h.n.str (bytes "transfer-encoding")

def isCl (h : HttpHdr) : Bool := isteqi h.n.str (bytes "content-length")

def isLength (h : HttpHdr) : Bool := h.isCl && !blankValue h.v

def named (h : HttpHdr) : Bool := h.n.str != []

/-- The entries that matter for the list: unnamed ones, which end it, and Content-Lengths. -/
def keyed (h : HttpHdr) : Bool := !h.named || h.isCl

end HttpHdr

/-- The list that a caller sees: it ends with the first entry without a name. -/
def returned (hdrs : List HttpHdr) : List HttpHdr := hdrs.takeWhile HttpHdr.named

/-- The names of the entries that matter. -/
def keyNames (hdrs : List HttpHdr) : List CStr := (hdrs.filter HttpHdr.keyed).map (·.n.str)

/-- The last Transfer-Encoding ends with "chunked". -/
def chunkedAtEnd (fields : List HttpHdr) : Bool :=
  ((fields.filter HttpHdr.isTe).getLast?).elim false fun h => lastChunked h.v

theorem isteqi_nil {n : CStr} (hn : n ≠ []) : isteqi [] n = false := by
  obtain ⟨c, n, rfl⟩ := List.exists_cons_of_ne_nil hn
  rfl

theorem isteqi_exclusive {a m n : CStr} (hmn : m.map istLc ≠ n.map istLc)
    (h : isteqi a m = true) : isteqi a n = false := by
  refine beq_eq_false_iff_ne.mpr fun hn => hmn ?_
  exact (beq_iff_eq.mp h).symm.trans hn

theorem named_of_isteqi {h : HttpHdr} {n : CStr} (hn : n ≠ []) (heq : isteqi h.n.str n = true) :
    h.named = true := by
  refine bne_iff_ne.mpr fun hnil => ?_
  rw [hnil, isteqi_nil hn] at heq
  cases heq

theorem returned_append_unnamed (hdrs : List HttpHdr) {h : HttpHdr} (hh : h.named = false) :
    returned (hdrs ++ [h]) = returned hdrs := by
  unfold returned
  rw [List.takeWhile_append]
  split_ifs with hall
  · rw [List.takeWhile_cons_of_neg (Bool.eq_false_iff.mp hh), List.append_nil,
      (List.takeWhile_prefix _).eq_of_length hall]
  · rfl

theorem returned_any_isCl (hdrs : List HttpHdr) :
    (returned hdrs).any HttpHdr.isCl =
      ((keyNames hdrs).head?).elim false fun n => isteqi n (bytes "content-length") := by
  induction hdrs with
  | nil => rfl
  | cons h hdrs ih =>
    unfold returned keyNames at ih ⊢
    cases hnamed : h.named with
    | false =>
      have hkeyed : h.keyed = true := by rw [HttpHdr.keyed, hnamed]; rfl
      have hnil : h.n.str = [] := by simpa [HttpHdr.named] using hnamed
      rw [List.takeWhile_cons_of_neg (Bool.eq_false_iff.mp hnamed),
        List.filter_cons_of_pos hkeyed, List.map_cons, hnil]
      rfl
    | true =>
      rw [List.takeWhile_cons_of_pos hnamed, List.any_cons]
      cases hcl : h.isCl with
      | true =>
        have hkeyed : h.keyed = true := by rw [HttpHdr.keyed, hcl, Bool.or_true]
        rw [List.filter_cons_of_pos hkeyed, List.map_cons]
        exact hcl.symm
      | false =>
        have hkeyed : ¬h.keyed = true := by simp [HttpHdr.keyed, hcl, hnamed]
        rw [List.filter_cons_of_neg hkeyed, ← ih, Bool.false_or]

theorem httpDelHdr_returned (n : CStr) (hdrs : List HttpHdr) :
    (returned (httpDelHdr n hdrs)).any (fun h => isteqi h.n.str n) = false := by
  induction hdrs with
  | nil => rfl
  | cons h hdrs ih =>
    rw [httpDelHdr]
    split_ifs with hnil hn
    · have hnamed : ¬h.named = true := by simp [HttpHdr.named, hnil]
      rw [returned, List.takeWhile_cons_of_neg hnamed]
      rfl
    · exact ih
    · have hnamed : h.named = true := bne_iff_ne.mpr hnil
      rw [returned, List.takeWhile_cons_of_pos hnamed, List.any_cons, Bool.eq_false_iff.mpr hn]
      exact ih

/-! ### The flags -/

/-- **What the flags say**, for the fields so far, and what the list holds. -/
structure Framing (f : H1mFlags) (hdrs fields : List HttpHdr) : Prop where
  xferEnc : f.xferEnc = fields.any HttpHdr.isTe
  chnk : f.chnk = chunkedAtEnd fields
  clen : f.clen = fields.any HttpHdr.isLength
  keys : f.clen = false → keyNames hdrs = keyNames fields

structure Adds (h : HttpHdr) (f f' : H1mFlags) : Prop where
  xferEnc : f'.xferEnc = (f.xferEnc || h.isTe)
  chnk : f'.chnk = if h.isTe then lastChunked h.v else f.chnk
  clen : f'.clen = (f.clen || h.isLength)

theorem keyNames_append (hdrs hdrs' : List HttpHdr) :
    keyNames (hdrs ++ hdrs') = keyNames hdrs ++ keyNames hdrs' := by
  rw [keyNames, List.filter_append, List.map_append]
  rfl

theorem keyNames_singleton (h : HttpHdr) :
    keyNames [h] = if h.keyed then [h.n.str] else [] := by
  rw [keyNames, List.filter_cons]
  split_ifs <;> rfl

theorem chunkedAtEnd_append (fields : List HttpHdr) (h : HttpHdr) :
    chunkedAtEnd (fields ++ [h]) =
      if h.isTe then lastChunked h.v else chunkedAtEnd fields := by
  unfold chunkedAtEnd
  rw [List.filter_append]
  cases hte : h.isTe with
  | true => rw [List.filter_cons_of_pos hte, List.filter_nil, List.getLast?_concat]; rfl
  | false =>
    rw [List.filter_cons_of_neg (Bool.eq_false_iff.mp hte), List.filter_nil, List.append_nil]
    rfl

namespace Framing

variable {f f' : H1mFlags} {hdrs hdrs' fields : List HttpHdr} {h : HttpHdr}

theorem add (hf : Framing f hdrs fields) (ha : Adds h f f')
    (hkeys : f'.clen = false → keyNames hdrs' = keyNames hdrs ++ keyNames [h]) :
    Framing f' hdrs' (fields ++ [h]) where
  xferEnc := by rw [ha.xferEnc, hf.xferEnc, List.any_append]; simp
  chnk := by rw [ha.chnk, chunkedAtEnd_append, hf.chnk]
  clen := by rw [ha.clen, hf.clen, List.any_append]; simp
  keys hclen := by
    have hclen' : f.clen = false := by
      rw [ha.clen] at hclen
      exact (Bool.or_eq_false_iff.mp hclen).1
    rw [hkeys hclen, keyNames_append, hf.keys hclen']

theorem index (hf : Framing f hdrs fields) (ha : Adds h f f') (v : Ist) :
    Framing f' (hdrs ++ [⟨h.n, v⟩]) (fields ++ [h]) := by
  refine hf.add ha fun _ => ?_
  rw [keyNames_append, keyNames_singleton, keyNames_singleton]
  rfl

theorem skip (hf : Framing f hdrs fields) (ha : Adds h f f')
    (hskip : f'.clen = false → h.keyed = false) : Framing f' hdrs (fields ++ [h]) := by
  refine hf.add ha fun hclen => ?_
  rw [keyNames_singleton, hskip hclen]
  exact (List.append_nil _).symm

end Framing

theorem adds_of_framing {h : HttpHdr} {f f' : H1mFlags} (hte : h.isTe = false)
    (hcl : h.isCl = false) (hf : f'.framing = f.framing) : Adds h f f' := by
  obtain ⟨hclen, hchnk, hxfer, -⟩ : f'.clen = f.clen ∧ f'.chnk = f.chnk ∧
      f'.xferEnc = f.xferEnc ∧ f'.resp = f.resp := by
    simpa [H1mFlags.framing] using hf
  refine ⟨?_, ?_, ?_⟩
  · rw [hxfer, hte, Bool.or_false]
  · rw [hchnk, hte]
    rfl
  · rw [hclen, HttpHdr.isLength, hcl, Bool.false_and, Bool.or_false]

/-- What happened to a field keeps the invariant. -/
def H1Field.Keeps (n : Ist) : H1Field → Prop
  | .index r v => Framing r.h1m.flags (r.setHdr n v).hdrs r.fields
  | .skip r => Framing r.h1m.flags r.hdrs r.fields
  | .refuse _ _ => True

theorem capture_framing (r : H1Regs) (pos : ℕ) :
    (r.capture pos).h1m.flags = r.h1m.flags ∧ (r.capture pos).hdrs = r.hdrs ∧
      (r.capture pos).fields = r.fields := by
  unfold H1Regs.capture
  split_ifs
  · exact ⟨rfl, rfl, rfl⟩
  · exact ⟨rfl, rfl, rfl⟩

theorem keyed_of_isteqi {h : HttpHdr} {n : CStr} (hn : n ≠ []) (hcl : h.isCl = false)
    (heq : isteqi h.n.str n = true) : h.keyed = false := by
  rw [HttpHdr.keyed, named_of_isteqi hn heq, hcl]
  rfl

theorem adds_xferEnc (h1m : H1m) {h : HttpHdr} (hte : h.isTe = true) :
    Adds h h1m.flags (h1ParseXferEncHeader h1m h.v).flags := by
  have hcl : h.isCl = false := isteqi_exclusive (by decide) hte
  rw [h1ParseXferEncHeader_flags]
  refine ⟨?_, ?_, ?_⟩
  · rw [hte, Bool.or_true]
  · rw [if_pos hte]
  · rw [HttpHdr.isLength, hcl, Bool.false_and, Bool.or_false]

theorem adds_contLen (h1m : H1m) {h : HttpHdr} (hcl : h.isCl = true)
    (hret : ¬(h1ParseContLenHeader h1m h.v).1 < 0) :
    Adds h h1m.flags (h1ParseContLenHeader h1m h.v).2.1.flags := by
  have hte : h.isTe = false := isteqi_exclusive (by decide) hcl
  obtain ⟨hxfer, hchnk, -⟩ := h1ParseContLenHeader_same h1m h.v
  refine ⟨?_, ?_, ?_⟩
  · rw [hxfer, hte, Bool.or_false]
  · rw [hchnk, hte]
    rfl
  · rw [h1ParseContLenHeader_clen h1m h.v hret, HttpHdr.isLength, hcl, Bool.true_and]

section Field

variable {r : H1Regs} {n v : Ist} {fields : List HttpHdr}

theorem keeps_index (hfields : r.fields = fields ++ [⟨n, v⟩])
    (h : Framing r.h1m.flags r.hdrs fields) (ha : Adds ⟨n, v⟩ r.h1m.flags h1m.flags) (v' : Ist) :
    H1Field.Keeps n (.index { r with h1m } v') := by
  show Framing h1m.flags (r.hdrs ++ [⟨n, v'⟩]) r.fields
  rw [hfields]
  exact h.index ha v'

theorem keeps_skip (hfields : r.fields = fields ++ [⟨n, v⟩]) (h : Framing r.h1m.flags r.hdrs fields)
    (ha : Adds ⟨n, v⟩ r.h1m.flags h1m.flags)
    (hskip : h1m.flags.clen = false → HttpHdr.keyed ⟨n, v⟩ = false) :
    H1Field.Keeps n (.skip { r with h1m }) := by
  show Framing h1m.flags r.hdrs r.fields
  rw [hfields]
  exact h.skip ha hskip

theorem host_keeps (hfields : r.fields = fields ++ [⟨n, v⟩])
    (h : Framing r.h1m.flags r.hdrs fields) (ha : Adds ⟨n, v⟩ r.h1m.flags r.h1m.flags)
    (hkeyed : HttpHdr.keyed ⟨n, v⟩ = false) : (r.host v).Keeps n := by
  obtain ⟨hflags, hhdrs, hfields'⟩ := capture_framing r v.ptr
  unfold H1Regs.host
  rcases r.hostIdx with - | i
  · dsimp only
    split_ifs
    · trivial
    · show Framing (r.capture v.ptr).h1m.flags ((r.capture v.ptr).hdrs ++ [⟨n, v⟩])
        (r.capture v.ptr).fields
      rw [hflags, hhdrs, hfields']
      exact keeps_index hfields h ha v
    · exact keeps_index hfields h ha v
  · dsimp only
    split_ifs
    · exact keeps_skip hfields h ha fun _ => hkeyed
    · trivial

/-- **One header field**, which is already among the fields of `r`. -/
theorem field_keeps (hfields : r.fields = fields ++ [⟨n, v⟩])
    (h : Framing r.h1m.flags r.hdrs fields) : (r.field n v).Keeps n := by
  unfold H1Regs.field
  by_cases hte : isteqi n.str (bytes "transfer-encoding") = true
  · rw [if_pos hte]
    exact keeps_index hfields h (adds_xferEnc r.h1m (h := ⟨n, v⟩) hte) v
  rw [if_neg hte]
  by_cases hcl : isteqi n.str (bytes "content-length") = true
  · rw [if_pos hcl]
    have ha : ¬(h1ParseContLenHeader r.h1m v).1 < 0 →
        Adds ⟨n, v⟩ r.h1m.flags (h1ParseContLenHeader r.h1m v).2.1.flags :=
      adds_contLen r.h1m (h := ⟨n, v⟩) hcl
    have hskip := h1ParseContLenHeader_skip r.h1m v
    generalize h1ParseContLenHeader r.h1m v = res at ha hskip ⊢
    obtain ⟨ret, h1m, v'⟩ := res
    dsimp only at ha hskip ⊢
    split_ifs with hfail hzero
    · trivial
    · -- there was a length before
      refine keeps_skip hfields h (ha hfail) fun hclen => ?_
      rw [(ha hfail).clen, hskip hzero] at hclen
      cases hclen
    · exact keeps_index hfields h (ha hfail) v'
  rw [if_neg hcl]
  have hte : HttpHdr.isTe ⟨n, v⟩ = false := Bool.eq_false_iff.mpr hte
  have hcl : HttpHdr.isCl ⟨n, v⟩ = false := Bool.eq_false_iff.mpr hcl
  have hsame {h1m : H1m} (hf : h1m.flags.framing = r.h1m.flags.framing) :
      Adds ⟨n, v⟩ r.h1m.flags h1m.flags :=
    adds_of_framing hte hcl hf
  by_cases hconn : isteqi n.str (bytes "connection") = true
  · rw [if_pos hconn]
    have ha := hsame (h1ParseConnectionHeader_framing r.h1m v)
    generalize h1ParseConnectionHeader r.h1m v = res at ha ⊢
    obtain ⟨h1m, v'⟩ := res
    dsimp only at ha ⊢
    split_ifs
    · exact keeps_skip hfields h ha fun _ => keyed_of_isteqi (by decide) hcl hconn
    · exact keeps_index hfields h ha v'
  rw [if_neg hconn]
  split_ifs with hupgrade hhost
  · have ha : Adds ⟨n, v⟩ r.h1m.flags (h1ParseUpgradeHeader r.h1m v).flags := hsame rfl
    exact keeps_index hfields h ha v
  · have hname := (Bool.and_eq_true_iff.mp hhost).2
    exact host_keeps hfields h (hsame rfl) (keyed_of_isteqi (by decide) hcl hname)
  · exact keeps_index hfields h (hsame rfl) v

end Field

/-! ### The labels -/

def H1mState.before : H1mState → Bool
  | .rqbefore | .rqbeforeCr | .rpbefore | .rpbeforeCr => true
  | _ => false

/-- **What can be told at the end**: the flags and the state follow from the fields. -/
structure Exclusive (state : H1mState) (f : H1mFlags) (hdrs fields : List HttpHdr) : Prop where
  not_both : ¬(f.chnk = true ∧ f.clen = true)
  state_iff : state = .chunkSize ↔ f.chnk = true
  chnk : f.chnk = chunkedAtEnd fields
  request : f.resp = false → fields.any HttpHdr.isTe = true → f.chnk = true
  list : fields.any HttpHdr.isTe = true → (returned hdrs).any HttpHdr.isCl =
    (!fields.any HttpHdr.isLength && (returned fields).any HttpHdr.isCl)

namespace H1Call

variable {call : H1Call}

/-- The invariant of a pass that records what it finds. -/
def Framed (call : H1Call) (r : H1Regs) : Prop :=
  call.restarting = false → Framing r.h1m.flags r.hdrs r.fields

def Inv (call : H1Call) (state : H1mState) (r : H1Regs) : Prop :=
  call.Framed r ∧ (state.before = true → r.fields = [] ∧ r.hdrs = [])

def Safe (call : H1Call) : H1Step → Prop
  | .eat state _ r => call.Inv state r
  | .invalid .. => True
  | .full .. => True
  | .restart _ => call.restarting = true
  | .done state r =>
    call.restarting = false ∧ Exclusive state r.h1m.flags r.hdrs r.fields

def SafeMove (call : H1Call) : H1Move → Prop
  | .step step => call.Safe step
  | .jump state _ r => call.Inv state r

theorem safe_eat {r : H1Regs} (c : UInt8) (hstate : state.before = false) (h : call.Framed r) :
    call.Safe (.eat state c r) :=
  ⟨h, fun hb => by rw [hstate] at hb; cases hb⟩

theorem safe_expectLf {r : H1Regs} {next : H1Step} (h : call.Safe next) :
    call.Safe (expectLf state r c next) := by
  unfold expectLf
  split_ifs
  · trivial
  · exact h

theorem safe_crOrLf {r : H1Regs} {lf : H1Regs → H1Step} (hstate : state.before = false)
    (h : call.Framed r) (hlf : call.Safe (lf r)) : call.Safe (crOrLf state r c lf) := by
  unfold crOrLf
  split_ifs
  · exact safe_eat c hstate h
  · exact hlf

theorem list_isCl {f : H1mFlags} {hdrs fields : List HttpHdr} {h : HttpHdr}
    (hh : h.named = false) (hf : Framing f hdrs fields) :
    (returned (if f.clen then httpDelHdr (bytes "content-length") (hdrs ++ [h])
      else hdrs ++ [h])).any HttpHdr.isCl =
    (!fields.any HttpHdr.isLength && (returned fields).any HttpHdr.isCl) := by
  rw [← hf.clen]
  cases hclen : f.clen with
  | true => exact httpDelHdr_returned _ _
  | false =>
    show (returned (hdrs ++ [h])).any HttpHdr.isCl = (returned fields).any HttpHdr.isCl
    rw [returned_append_unnamed hdrs hh, returned_any_isCl, hf.keys hclen, ← returned_any_isCl]

theorem chunkedAtEnd_of_not_any {fields : List HttpHdr} (h : fields.any HttpHdr.isTe = false) :
    chunkedAtEnd fields = false := by
  have hnil : fields.filter HttpHdr.isTe = [] :=
    List.filter_eq_nil_iff.mpr fun x hx => List.any_eq_false.mp h x hx
  rw [chunkedAtEnd, hnil]
  rfl

theorem clen_false {f : H1mFlags} (h : f.clen = false) : f = { f with clen := false } := by
  rw [← h]

theorem dropLength_spec (r : H1Regs) :
    (dropLength r).h1m.flags = { r.h1m.flags with clen := false } ∧
      (dropLength r).hdrs =
        (if r.h1m.flags.clen then httpDelHdr (bytes "content-length") r.hdrs else r.hdrs) ∧
      (dropLength r).fields = r.fields := by
  unfold dropLength
  cases hclen : r.h1m.flags.clen with
  | true => exact ⟨rfl, rfl, rfl⟩
  | false => exact ⟨clen_false hclen, rfl, rfl⟩

/-- The end of the headers. -/
theorem finish_safe {r : H1Regs} {hdrs : List HttpHdr} {h : HttpHdr}
    (hrestart : call.restarting = false) (hhdrs : r.hdrs = hdrs ++ [h])
    (hh : h.named = false) (hf : Framing r.h1m.flags hdrs r.fields) :
    call.Safe (finish r) := by
  have hlist := list_isCl hh hf
  rw [← hhdrs] at hlist
  unfold finish
  cases hxfer : r.h1m.flags.xferEnc with
  | false =>
    -- neither a Transfer-Encoding nor "chunked"
    have hnone : r.fields.any HttpHdr.isTe = false := hf.xferEnc ▸ hxfer
    have hchnk : r.h1m.flags.chnk = false := hf.chnk.trans (chunkedAtEnd_of_not_any hnone)
    show call.restarting = false ∧ Exclusive .data r.h1m.flags r.hdrs r.fields
    refine ⟨hrestart, ?_, ?_, hf.chnk, ?_, ?_⟩
    · rw [hchnk]
      exact fun h => Bool.false_ne_true h.1
    · rw [hchnk]
      exact iff_of_false (by decide) Bool.false_ne_true
    · intro _ hany
      rw [hnone] at hany
      cases hany
    · intro hany
      rw [hnone] at hany
      cases hany
  | true =>
    obtain ⟨hflags, hhdrs', hfields⟩ := dropLength_spec r
    have hend (state : H1mState) (hstate : state = .chunkSize ↔ r.h1m.flags.chnk = true)
        (hreq : r.h1m.flags.resp = false → r.h1m.flags.chnk = true) :
        call.Safe (.done state (dropLength r)) := by
      show call.restarting = false ∧
        Exclusive state (dropLength r).h1m.flags (dropLength r).hdrs (dropLength r).fields
      rw [hflags, hhdrs', hfields]
      exact ⟨hrestart, fun h => Bool.false_ne_true h.2, hstate, hf.chnk, fun h _ => hreq h,
        fun _ => hlist⟩
    show call.Safe (if (dropLength r).h1m.flags.chnk then .done .chunkSize (dropLength r)
      else if (dropLength r).h1m.flags.resp then .done .data (dropLength r)
      else .invalid .data ((dropLength r).ptr + 1) (dropLength r))
    rw [hflags]
    dsimp only
    split_ifs with hchnk hresp
    · exact hend _ (iff_of_true rfl hchnk) fun _ => hchnk
    · exact hend _ (iff_of_false (by decide) hchnk) fun h => absurd hresp (Bool.eq_false_iff.mp h)
    · trivial

/-! The labels, in the order of the jumps.  A pass records what it finds (`hskip`), unless
it looks for the end of the message only. -/

section Labels

variable (hskip : call.skipUpdate = call.restarting) {r : H1Regs}
include hskip

theorem lastLf_safe (c : UInt8) (h : call.Framed r) : call.Safe (call.lastLf r c) := by
  refine safe_expectLf ?_
  cases hrestart : call.restarting with
  | true =>
    rw [hskip, hrestart]
    exact hrestart
  | false =>
    rw [hskip, hrestart, if_neg Bool.false_ne_true]
    by_cases hfull : r.hdrs.length ≥ call.hdrNum
    · rw [if_pos hfull]
      trivial
    · rw [if_neg hfull]
      show call.Safe (finish (r.setHdr ⟨r.sol, []⟩ ⟨0, []⟩))
      exact finish_safe (h := ⟨⟨r.sol, []⟩, ⟨0, []⟩⟩) hrestart rfl rfl (h hrestart)

omit hskip in
theorem capture_framed (pos : ℕ) (h : call.Framed r) : call.Framed (r.capture pos) := by
  obtain ⟨hflags, hhdrs, hfields⟩ := capture_framing r pos
  unfold Framed
  rw [hflags, hhdrs, hfields]
  exact h

omit hskip in
theorem hdrName_safe (c : UInt8) (h : call.Framed r) : call.Safe (call.hdrName r c) := by
  unfold hdrName
  split_ifs
  · exact safe_eat _ rfl h
  · exact safe_eat _ rfl h
  · exact safe_eat _ rfl h
  · trivial
  · exact safe_eat _ rfl (capture_framed _ h)

theorem line_safe (c : UInt8) (h : call.Framed r) : call.Safe (call.line r c) := by
  have h' : call.Framed { r with sol := r.ptr } := h
  unfold line
  dsimp only
  split_ifs
  · exact hdrName_safe c h'
  · exact safe_crOrLf rfl h' (lastLf_safe hskip c h')

/-- **The end of a header field.** -/
theorem completeHeader_safe (c : UInt8) (h : call.Framed r) :
    call.Safe (call.completeHeader r c) := by
  unfold completeHeader
  cases hrestart : call.restarting with
  | true =>
    rw [hskip, hrestart]
    exact line_safe hskip c h
  | false =>
    rw [hskip, hrestart, if_neg Bool.false_ne_true]
    dsimp only
    split_ifs
    · trivial
    · have hkeeps := field_keeps (r := { r with
          fields := r.fields ++ [⟨r.slice r.sol r.col, trim r⟩] }) rfl (h hrestart)
      generalize H1Regs.field _ (r.slice r.sol r.col) (trim r) = field at hkeeps ⊢
      rcases field with ⟨r', v⟩ | r' | ⟨r', v⟩
      · exact line_safe hskip c fun _ => hkeeps
      · exact line_safe hskip c fun _ => hkeeps
      · trivial

omit hskip in
theorem hdrL2Lf_safe (c : UInt8) (h : call.Framed r) : call.Safe (hdrL2Lf r c) :=
  safe_expectLf (safe_eat c rfl h)

omit hskip in
theorem hdrVal2_safe (c : UInt8) (h : call.Framed r) : call.Safe (hdrVal2 r c) := by
  unfold hdrVal2
  split_ifs
  · exact safe_eat c rfl h
  · exact safe_crOrLf rfl h (hdrL2Lf_safe c h)

omit hskip in
theorem safe_enter {loop : CStr → ℕ} {s : CStr} {next : H1Move} (hstate : state.before = false)
    (h : call.Framed r) (hnext : call.SafeMove next) :
    call.SafeMove (call.enter state loop r c s next) := by
  unfold enter
  rcases call.words loop (c :: s) with - | n
  · exact hnext
  · exact safe_eat c hstate h

omit hskip in
theorem hdrVal_safe (c : UInt8) (s : CStr) (h : call.Framed r) :
    call.SafeMove (call.hdrVal r c s) :=
  safe_enter rfl h (hdrVal2_safe c h)

theorem hdrL2Lws_safe (c : UInt8) (s : CStr) (h : call.Framed r) :
    call.SafeMove (call.hdrL2Lws r c s) := by
  unfold hdrL2Lws
  split_ifs
  · exact hdrVal_safe c s h
  · exact hdrVal_safe c s h
  · exact completeHeader_safe hskip c h

omit hskip in
theorem hdrL1Lf_safe (c : UInt8) (h : call.Framed r) : call.Safe (hdrL1Lf r c) :=
  safe_expectLf (safe_eat c rfl h)

omit hskip in
theorem hdrL1Sp_safe (c : UInt8) (s : CStr) (h : call.Framed r) :
    call.SafeMove (call.hdrL1Sp r c s) := by
  unfold hdrL1Sp
  dsimp only
  split_ifs
  · exact safe_eat c rfl h
  · exact hdrVal_safe c s h
  · exact safe_crOrLf rfl h (hdrL1Lf_safe c h)

theorem hdrL1Lws_safe (c : UInt8) (s : CStr) (h : call.Framed r) :
    call.SafeMove (call.hdrL1Lws r c s) := by
  unfold hdrL1Lws
  split_ifs
  · exact hdrL1Sp_safe c s h
  · exact hdrL1Sp_safe c s h
  · exact completeHeader_safe hskip c h

/-! Start lines. -/

omit hskip in
theorem setVer11_framed (v : CStr) (h : call.Framed r) : call.Framed (setVer11 r v) := by
  unfold setVer11
  split_ifs
  · exact fun hr => ⟨(h hr).xferEnc, (h hr).chnk, (h hr).clen, (h hr).keys⟩
  · exact h

omit hskip in
theorem pseudo_safe {name : String} {v : Ist} {next : H1Regs → H1Step}
    (hkeyed : HttpHdr.keyed ⟨⟨0, bytes name⟩, v⟩ = false) (h : call.Framed r)
    (hnext : ∀ r', call.Framed r' → call.Safe (next r')) :
    call.Safe (call.pseudo r state name v next) := by
  unfold pseudo
  split_ifs
  · trivial
  · exact hnext r h
  · refine hnext _ fun hr => ⟨(h hr).xferEnc, (h hr).chnk, (h hr).clen, fun hclen => ?_⟩
    show keyNames (r.hdrs ++ [_]) = keyNames r.fields
    rw [keyNames_append, keyNames_singleton, hkeyed, (h hr).keys hclen]
    exact List.append_nil _

theorem rqlineEnd_safe (c : UInt8) (h : call.Framed r) : call.Safe (call.rqlineEnd r c) := by
  unfold rqlineEnd
  split_ifs with hrestart
  · exact hrestart
  · exact lastLf_safe hskip c h
  · exact safe_expectLf (safe_eat c rfl h)

theorem rqlineEol_safe (c : UInt8) (h : call.Framed r) : call.Safe (call.rqlineEol r c) := by
  have heol (r : H1Regs) (h : call.Framed r) :
      call.Safe (crOrLf .rqlineEnd { r with sol := r.ptr } c (call.rqlineEnd · c)) := by
    have h' : call.Framed { r with sol := r.ptr } := h
    exact safe_crOrLf rfl h' (rqlineEnd_safe hskip c h')
  unfold rqlineEol
  split_ifs
  · exact heol r h
  · refine pseudo_safe rfl (setVer11_framed _ h) fun r' h' => ?_
    exact pseudo_safe rfl h' heol

theorem rqver_safe (c : UInt8) (h : call.Framed r) : call.Safe (call.rqver r c) := by
  unfold rqver
  split_ifs
  · exact safe_eat c rfl h
  · exact rqlineEol_safe hskip c h
  · trivial

theorem rquriSp_safe (c : UInt8) (h : call.Framed r) : call.Safe (call.rquriSp r c) := by
  unfold rquriSp
  split_ifs
  · exact rqver_safe hskip c h
  · exact safe_eat c rfl h
  · exact rqlineEol_safe hskip c h

theorem rquri2_safe (c : UInt8) (s : CStr) (h : call.Framed r) :
    call.SafeMove (call.rquri2 r c s) := by
  unfold rquri2
  split_ifs
  · exact safe_eat c rfl h
  · exact safe_eat c rfl h
  · trivial
  · exact safe_eat c rfl (capture_framed _ h)
  · exact rqlineEol_safe hskip c h
  · trivial

theorem rqmethSp_safe (c : UInt8) (s : CStr) (h : call.Framed r) :
    call.SafeMove (call.rqmethSp r c s) := by
  unfold rqmethSp
  split_ifs
  · exact safe_enter rfl h (rquri2_safe hskip c s h)
  · exact safe_eat c rfl h
  · exact rqlineEol_safe hskip c h

theorem rqmeth_safe (c : UInt8) (h : call.Framed r) : call.Safe (call.rqmeth r c) := by
  unfold rqmeth
  split_ifs
  · exact safe_eat c rfl h
  · exact safe_eat c rfl h
  · exact rqlineEol_safe hskip c h
  · trivial

omit hskip in
theorem begin_framed (h : call.Framed r) (hfields : r.fields = [] ∧ r.hdrs = []) :
    call.Framed (begin r) := by
  unfold Framed
  show call.restarting = false → Framing r.h1m.flags [] r.fields
  rw [← hfields.2]
  exact h

theorem rqbefore_safe (c : UInt8) (h : call.Framed r) (hfields : r.fields = [] ∧ r.hdrs = []) :
    call.Safe (call.rqbefore r c) := by
  unfold rqbefore
  split_ifs
  · have hbegin : call.Framed (begin r) := begin_framed h hfields
    exact rqmeth_safe hskip c hbegin
  · trivial
  · exact ⟨h, fun _ => hfields⟩
  · exact ⟨h, fun _ => hfields⟩

omit hskip in
theorem rplineEnd_safe (c : UInt8) (h : call.Framed r) : call.Safe (rplineEnd r c) :=
  safe_expectLf (safe_eat c rfl h)

omit hskip in
theorem rplineEol_safe (c : UInt8) (h : call.Framed r) : call.Safe (call.rplineEol r c) := by
  have heol (r : H1Regs) (h : call.Framed r) :
      call.Safe (crOrLf .rplineEnd { r with sol := r.ptr } c (rplineEnd · c)) := by
    have h' : call.Framed { r with sol := r.ptr } := h
    exact safe_crOrLf rfl h' (rplineEnd_safe c h')
  unfold rplineEol
  split_ifs
  · exact heol r h
  · exact pseudo_safe rfl h heol

omit hskip in
theorem rpreason_safe (c : UInt8) (h : call.Framed r) : call.Safe (call.rpreason r c) := by
  unfold rpreason
  split_ifs
  · exact safe_eat c rfl h
  · exact rplineEol_safe c h

omit hskip in
theorem rpcodeSp_safe (c : UInt8) (h : call.Framed r) : call.Safe (call.rpcodeSp r c) := by
  unfold rpcodeSp
  split_ifs
  · exact rpreason_safe c h
  · exact safe_eat c rfl h
  · exact rplineEol_safe c h

omit hskip in
theorem rpcode_safe (c : UInt8) (h : call.Framed r) : call.Safe (call.rpcode r c) := by
  unfold rpcode
  split_ifs
  · exact safe_eat c rfl h
  · trivial
  · exact safe_eat c rfl h
  · exact rplineEol_safe c h

omit hskip in
theorem rpverSp_safe (c : UInt8) (h : call.Framed r) : call.Safe (call.rpverSp r c) := by
  unfold rpverSp
  split_ifs
  · exact rpcode_safe c h
  · exact safe_eat c rfl h
  · trivial

omit hskip in
theorem rpver_safe (c : UInt8) (h : call.Framed r) : call.Safe (rpver r c) := by
  unfold rpver
  split_ifs
  · exact safe_eat c rfl h
  · exact safe_eat c rfl (setVer11_framed _ h)
  · trivial

omit hskip in
theorem rpbefore_safe (c : UInt8) (h : call.Framed r) (hfields : r.fields = [] ∧ r.hdrs = []) :
    call.Safe (rpbefore r c) := by
  unfold rpbefore
  split_ifs
  · have hbegin : call.Framed (begin r) := begin_framed h hfields
    exact rpver_safe c hbegin
  · trivial
  · exact ⟨h, fun _ => hfields⟩
  · exact ⟨h, fun _ => hfields⟩

/-- **One byte keeps the invariant.** -/
theorem byte_safe (c : UInt8) (s : CStr) (h : call.Inv state r) :
    call.SafeMove (call.byte state r c s) := by
  obtain ⟨h, hfields⟩ := h
  unfold byte
  cases state with
  | rqbefore => exact rqbefore_safe hskip c h (hfields rfl)
  | rqbeforeCr => exact safe_expectLf ⟨h, fun _ => hfields rfl⟩
  | rqmeth => exact rqmeth_safe hskip c h
  | rqmethSp => exact rqmethSp_safe hskip c s h
  | rquri => exact rquri2_safe hskip c s h
  | rquriSp => exact rquriSp_safe hskip c h
  | rqver => exact rqver_safe hskip c h
  | rqlineEnd => exact rqlineEnd_safe hskip c h
  | rpbefore => exact rpbefore_safe c h (hfields rfl)
  | rpbeforeCr => exact safe_expectLf ⟨h, fun _ => hfields rfl⟩
  | rpver => exact rpver_safe c h
  | rpverSp => exact rpverSp_safe c h
  | rpcode => exact rpcode_safe c h
  | rpcodeSp => exact rpcodeSp_safe c h
  | rpreason => exact rpreason_safe c h
  | rplineEnd => exact rplineEnd_safe c h
  | hdrFirst => exact line_safe hskip c h
  | hdrName => exact hdrName_safe c h
  | hdrL1Sp => exact hdrL1Sp_safe c s h
  | hdrL1Lf => exact hdrL1Lf_safe c h
  | hdrL1Lws => exact hdrL1Lws_safe hskip c s h
  | hdrVal => exact hdrVal2_safe c h
  | hdrL2Lf => exact hdrL2Lf_safe c h
  | hdrL2Lws => exact hdrL2Lws_safe hskip c s h
  | lastLf => exact lastLf_safe hskip c h
  | hdrCol | chunkSize | data | chunkCrlf | trailers | done | tunnel => trivial

def SafeEnd (call : H1Call) : H1End → Prop
  | .ood .. => True
  | .invalid .. => True
  | .full .. => True
  | .restart _ => call.restarting = true
  | .done state r =>
    call.restarting = false ∧ Exclusive state r.h1m.flags r.hdrs r.fields

/-- **A pass keeps the invariant**, by induction on the bytes. -/
theorem run_safe (n : ℕ) (s : CStr) (h : call.Inv state r) :
    call.SafeEnd (call.run n state r s) := by
  induction s generalizing n state r with
  | nil => trivial
  | cons c s ih =>
    rw [run]
    split_ifs with hn
    · exact ih _ h
    · have hbyte := byte_safe hskip c s h
      generalize call.byte state r c s = move at hbyte ⊢
      rcases move with ⟨⟨state, c, r⟩ | _ | _ | r | ⟨state, r⟩⟩ | ⟨state, n, r⟩
      · exact ih _ hbyte
      · trivial
      · trivial
      · exact hbyte
      · exact hbyte
      · exact ih _ hbyte

end Labels

end H1Call

/-! ### Calls -/

/-- A message that has no framing yet, or whose parsing goes on (it then starts again). -/
def H1m.Fresh (h1m : H1m) : Prop :=
  h1m.restarting = false →
    h1m.flags.clen = false ∧ h1m.flags.chnk = false ∧ h1m.flags.xferEnc = false

theorem passH1m_flags (h1m : H1m) : h1m.passH1m.flags = h1m.flags := by
  unfold H1m.passH1m
  split_ifs <;> rfl

theorem h1Pass_safe (fast : Bool) (msg : CStr) (hdrNum start : ℕ) (h1m : H1m)
    (h : h1m.Fresh) :
    (h1m.passCall fast true hdrNum).SafeEnd (h1Pass fast true msg hdrNum start h1m) := by
  refine H1Call.run_safe rfl _ _ ⟨fun hr => ?_, fun _ => ⟨rfl, rfl⟩⟩
  obtain ⟨hclen, hchnk, hxfer⟩ := h hr
  show Framing h1m.passH1m.flags [] []
  rw [passH1m_flags]
  exact ⟨hxfer, hchnk, hclen, fun _ => rfl⟩

theorem h1Result_done {skip : Bool} {e : H1End} (h : 0 < (h1Result skip e).ret) :
    ∃ state r, e = .done state r := by
  have hneg : ¬(0 : ℤ) < -1 ∧ ¬(0 : ℤ) < -2 := by decide
  cases e with
  | ood => exact absurd h (Int.lt_irrefl 0)
  | invalid => exact absurd h hneg.1
  | full => exact absurd h hneg.2
  | restart => exact absurd h hneg.1
  | done state r => exact ⟨state, r, rfl⟩

/-- **The end of a call that succeeds.** -/
theorem h1HeadersToHdrList_end {fast : Bool} {msg : CStr} {hdrNum : ℕ} (hfresh : h1m.Fresh)
    (hret : 0 < (h1HeadersToHdrList fast true msg hdrNum h1m).ret) :
    ∃ skip state r, Exclusive state r.h1m.flags r.hdrs r.fields ∧
      h1HeadersToHdrList fast true msg hdrNum h1m = h1Result skip (.done state r) := by
  have hpass := h1Pass_safe fast msg hdrNum 0 h1m hfresh
  -- a pass that succeeds, the first one or the second one
  have hdone {call : H1Call} {b : Bool} {e : H1End} (hsafe : call.SafeEnd e)
      (h : 0 < (h1Result b e).ret) : ∃ skip state r,
        Exclusive state r.h1m.flags r.hdrs r.fields ∧
          h1Result b e = h1Result skip (.done state r) := by
    obtain ⟨state, r, rfl⟩ := h1Result_done h
    exact ⟨b, state, r, hsafe.2, rfl⟩
  unfold h1HeadersToHdrList at hret ⊢
  generalize h1Pass fast true msg hdrNum 0 h1m = e at hpass hret ⊢
  cases e with
  | restart r =>
    have hfresh₂ : r.h1m.restart.Fresh := fun _ => ⟨rfl, rfl, rfl⟩
    exact hdone (h1Pass_safe fast msg hdrNum r.start r.h1m.restart hfresh₂) hret
  | ood => exact hdone hpass hret
  | invalid => exact hdone hpass hret
  | full => exact hdone hpass hret
  | done => exact hdone hpass hret

/-! ### Framing -/

/-- The last transfer coding over all fields is "chunked". -/
def EndsChunked (fields : List HttpHdr) : Prop :=
  (((fields.filter HttpHdr.isTe).flatMap fun h => codings h.v.str).getLast?).elim false isChunked
    = true

/-- **The framing of a message that is accepted**: at most one of the two kinds of lengths; a
request is in chunked state if its last transfer coding is "chunked", and it is not accepted
if it has transfer codings of which another one is the last; no Content-Length stays in the
list next to a Transfer-Encoding. -/
structure FramingExclusive (res : H1Result) : Prop where
  not_both : ¬(res.h1m.flags.chnk = true ∧ res.h1m.flags.clen = true)
  chunked : res.h1m.flags.resp = false →
    (res.h1m.state = .chunkSize ↔ EndsChunked res.fields)
  rejected : res.h1m.flags.resp = false → (∃ h ∈ res.fields, h.isTe = true) →
    EndsChunked res.fields
  no_length : (∃ h ∈ res.fields, h.isTe = true) → ∀ h ∈ returned res.hdrs, h.isCl = false

theorem endsChunked_of_chunkedAtEnd {fields : List HttpHdr} (h : chunkedAtEnd fields = true) :
    EndsChunked fields := by
  unfold chunkedAtEnd at h
  unfold EndsChunked
  rcases List.eq_nil_or_concat (fields.filter HttpHdr.isTe) with hnil | ⟨l, x, hl⟩
  · rw [hnil] at h
    cases h
  · rw [hl, List.concat_eq_append, List.getLast?_concat] at h
    have hlast := codings_of_lastChunked (v := x.v) h
    rw [hl, List.concat_eq_append, List.flatMap_append, List.flatMap_singleton,
      List.getLast?_append]
    rcases hcodings : (codings x.v.str).getLast? with - | w
    · rw [hcodings] at hlast
      cases hlast
    · rw [hcodings] at hlast
      exact hlast

theorem exists_te_of_endsChunked {fields : List HttpHdr} (h : EndsChunked fields) :
    fields.any HttpHdr.isTe = true := by
  by_contra hnone
  have hnil : fields.filter HttpHdr.isTe = [] :=
    List.filter_eq_nil_iff.mpr (List.any_eq_false.mp (Bool.eq_false_iff.mpr hnone))
  unfold EndsChunked at h
  rw [hnil] at h
  cases h

/-- **When the framing is exclusive**, for the messages that `h1_headers_to_hdr_list` accepts:
a message with a Transfer-Encoding has a Content-Length that is not blank, or no
Content-Length before the first field without a name. -/
theorem h1_framing_iff (fast : Bool) (msg : CStr) (hdrNum : ℕ) (h1m : H1m)
    (hfresh : h1m.Fresh) (hret : 0 < (h1HeadersToHdrList fast true msg hdrNum h1m).ret) :
    FramingExclusive (h1HeadersToHdrList fast true msg hdrNum h1m) ↔
      let fields := (h1HeadersToHdrList fast true msg hdrNum h1m).fields
      (∃ h ∈ fields, h.isTe = true) →
        (∃ h ∈ fields, h.isCl = true ∧ blankValue h.v = false) ∨
          ∀ h ∈ returned fields, h.isCl = false := by
  obtain ⟨skip, state, r, hex, hres⟩ := h1HeadersToHdrList_end hfresh hret
  rw [hres]
  have hlist (hany : ∃ h ∈ r.fields, h.isTe = true) :
      (∀ h ∈ returned r.hdrs, h.isCl = false) ↔
        (∃ h ∈ r.fields, h.isCl = true ∧ blankValue h.v = false) ∨
          ∀ h ∈ returned r.fields, h.isCl = false := by
    have h := hex.list (List.any_eq_true.mpr hany)
    have hiff : (returned r.hdrs).any HttpHdr.isCl = false ↔
        r.fields.any HttpHdr.isLength = true ∨ (returned r.fields).any HttpHdr.isCl = false := by
      rw [h, Bool.and_eq_false_iff, Bool.not_eq_false']
    simpa [HttpHdr.isLength] using hiff
  constructor
  · exact fun h hany => (hlist hany).mp (h.no_length hany)
  · intro h
    have hends (hreq : r.h1m.flags.resp = false) (hany : r.fields.any HttpHdr.isTe = true) :
        EndsChunked r.fields :=
      endsChunked_of_chunkedAtEnd (hex.chnk ▸ hex.request hreq hany)
    refine ⟨hex.not_both, fun hreq => ?_, fun hreq hany => ?_,
      fun hany => (hlist hany).mpr (h hany)⟩
    · show state = .chunkSize ↔ EndsChunked r.fields
      rw [hex.state_iff]
      constructor
      · exact fun hchnk => endsChunked_of_chunkedAtEnd (hex.chnk ▸ hchnk)
      · exact fun hchunked => hex.request hreq (exists_te_of_endsChunked hchunked)
    · exact hends hreq (List.any_eq_true.mpr hany)

def bothLengths : CStr :=
  bytes "POST / HTTP/1.1\r\nContent-Length: 3\r\nTransfer-Encoding: chunked\r\n\r\n"

/-- A request with an empty Content-Length. -/
def emptyLength : CStr :=
  bytes "POST / HTTP/1.1\r\nContent-Length:\r\nTransfer-Encoding: chunked\r\n\r\n"

theorem h1_framing_iff_both :
    FramingExclusive (h1HeadersToHdrList true true bothLengths 100 h1mInitReq) := by
  have hret : 0 < (h1HeadersToHdrList true true bothLengths 100 h1mInitReq).ret := by
    decide +kernel
  refine (h1_framing_iff true bothLengths 100 h1mInitReq (fun _ => ⟨rfl, rfl, rfl⟩) hret).mpr ?_
  intro fields _
  left
  show ∃ h ∈ (h1HeadersToHdrList true true bothLengths 100 h1mInitReq).fields,
    h.isCl = true ∧ blankValue h.v = false
  decide +kernel

/-- The empty Content-Length stays in the list. -/
theorem not_h1_framing :
    0 < (h1HeadersToHdrList true true emptyLength 100 h1mInitReq).ret ∧
      ¬FramingExclusive (h1HeadersToHdrList true true emptyLength 100 h1mInitReq) := by
  refine ⟨by decide +kernel, fun h => ?_⟩
  have hte : ∃ h ∈ (h1HeadersToHdrList true true emptyLength 100 h1mInitReq).fields,
      h.isTe = true := by decide +kernel
  have hcl : ∃ h ∈ returned (h1HeadersToHdrList true true emptyLength 100 h1mInitReq).hdrs,
      h.isCl = true := by decide +kernel
  obtain ⟨x, hx, hxcl⟩ := hcl
  rw [h.no_length hte x hx] at hxcl
  cases hxcl

end SmartHAProxy
