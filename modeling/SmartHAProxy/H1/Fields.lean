/-
What the header fields of a message do to its framing.

The transfer codings of a value are the elements of a list, which commas
outside of quoted strings separate (`codings`); `hdrWords` finds them
(`hdrWords_codings`).  A Content-Length sets its flag if its value is not blank
(`h1ParseContLenHeader_clen`).
-/
import SmartHAProxy.H1.ContLen
import SmartHAProxy.H1.Headers

namespace SmartHAProxy

/-! ### Lists of values -/

/-- Whether the next byte is in a quoted string, and whether it is escaped. -/
def quoteStep (quoted qdpair : Bool) (c : UInt8) : Bool × Bool :=
  if qdpair then (quoted, false)
  else if quoted then (c != 34, c == 92)
  else (c == 34, false)

/-- The elements of a list, between the commas that are not quoted. -/
def listElems (quoted qdpair : Bool) : CStr → List CStr
  | [] => [[]]
  | c :: s =>
    if quoted = false ∧ qdpair = false ∧ c = 44 then [] :: listElems false false s
    else
      let q := quoteStep quoted qdpair c
      match listElems q.1 q.2 s with
      | [] => [[c]]
      | e :: es => (c :: e) :: es

/-- A string without the blanks around it. -/
def trimLws (s : CStr) : CStr := ((s.dropWhile httpIsLws).reverse.dropWhile httpIsLws).reverse

/-- **The transfer codings of a value.** -/
def codings (s : CStr) : List CStr := ((listElems false false s).map trimLws).filter (· ≠ [])

def elemsAfter : CStr → List CStr
  | [] => []
  | _ :: s => listElems false false s

theorem findEnd_cons {quoted qdpair : Bool} {c : UInt8} (s : CStr)
    (h : ¬(quoted = false ∧ qdpair = false ∧ c = 44)) :
    httpFindHdrValueEnd quoted qdpair (c :: s) =
      1 + httpFindHdrValueEnd (quoteStep quoted qdpair c).1 (quoteStep quoted qdpair c).2 s := by
  rw [httpFindHdrValueEnd]
  cases qdpair with
  | true => rfl
  | false =>
    cases quoted with
    | true =>
      by_cases hslash : c = 92
      · rw [hslash]
        rfl
      · by_cases hquote : c = 34
        · rw [hquote]
          rfl
        · have hstep : quoteStep true false c = (true, false) :=
            Prod.ext (bne_iff_ne.mpr hquote) (beq_eq_false_iff_ne.mpr hslash)
          rw [if_neg hslash, if_neg hquote, hstep]
          rfl
    | false =>
      by_cases hquote : c = 34
      · rw [hquote]
        rfl
      · have hcomma : c ≠ 44 := fun hc => h ⟨rfl, rfl, hc⟩
        have hstep : quoteStep false false c = (false, false) :=
          Prod.ext (beq_eq_false_iff_ne.mpr hquote) rfl
        rw [if_neg Bool.false_ne_true, if_neg Bool.false_ne_true, if_neg hquote, if_neg hcomma,
          hstep]

theorem listElems_eq (quoted qdpair : Bool) (s : CStr) :
    listElems quoted qdpair s =
      s.take (httpFindHdrValueEnd quoted qdpair s) ::
        elemsAfter (s.drop (httpFindHdrValueEnd quoted qdpair s)) := by
  induction s generalizing quoted qdpair with
  | nil => rfl
  | cons c s ih =>
    by_cases hcomma : quoted = false ∧ qdpair = false ∧ c = 44
    · obtain ⟨rfl, rfl, rfl⟩ := hcomma
      rfl
    · rw [listElems, if_neg hcomma, findEnd_cons s hcomma, Nat.add_comm]
      show (match listElems _ _ s with | [] => [[c]] | e :: es => (c :: e) :: es) = _
      rw [ih]
      rfl

theorem trimLws_blank {c : UInt8} (s : CStr) (hc : httpIsLws c = true) :
    trimLws (c :: s) = trimLws s := by
  rw [trimLws, List.dropWhile_cons_of_pos hc, trimLws]

theorem trimLws_not_blank {c : UInt8} (s : CStr) (n : ℕ) (hc : httpIsLws c = false) :
    trimLws ((c :: s).take n) = (((c :: s).take n).reverse.dropWhile httpIsLws).reverse := by
  cases n with
  | zero => rfl
  | succ n =>
    have hneg : ¬httpIsLws c = true := Bool.eq_false_iff.mp hc
    rw [List.take_succ_cons, trimLws, List.dropWhile_cons_of_neg hneg]

theorem codings_blank {c : UInt8} (s : CStr) (hc : httpIsLws c = true) :
    codings (c :: s) = codings s := by
  have hne : c ≠ 44 ∧ c ≠ 34 := by
    constructor
    · rintro rfl
      cases hc
    · rintro rfl
      cases hc
  have hstep : quoteStep false false c = (false, false) :=
    Prod.ext (beq_eq_false_iff_ne.mpr hne.2) rfl
  have helems : ∃ e es, listElems false false s = e :: es ∧
      listElems false false (c :: s) = (c :: e) :: es := by
    refine ⟨_, _, listElems_eq false false s, ?_⟩
    rw [listElems, if_neg fun h => hne.1 h.2.2, hstep]
    show (match listElems false false s with | [] => [[c]] | e :: es => (c :: e) :: es) = _
    rw [listElems_eq]
  obtain ⟨e, es, h, h'⟩ := helems
  rw [codings, codings, h, h', List.map_cons, List.map_cons, trimLws_blank e hc]

/-- **The words of a value** are its codings, and empty words. -/
theorem hdrWords_codings (fuel ptr : ℕ) (s : CStr) (hfuel : s.length ≤ fuel) :
    ((hdrWords fuel ptr s).map (·.1.str)).filter (· ≠ []) = codings s := by
  induction fuel generalizing ptr s with
  | zero =>
    rw [List.eq_nil_of_length_eq_zero (Nat.le_zero.mp hfuel)]
    rfl
  | succ fuel ih =>
    rcases s with - | ⟨c, s⟩
    · rfl
    · have hs : s.length ≤ fuel := Nat.le_of_succ_le_succ hfuel
      rw [hdrWords]
      cases hlws : httpIsLws c with
      | true => rw [if_pos rfl, ih _ s hs, codings_blank s hlws]
      | false =>
        rw [if_neg Bool.false_ne_true, codings, listElems_eq]
        generalize httpFindHdrValueEnd false false (c :: s) = n
        -- the elements after the first one, and the words after the first one
        have hafter : ((hdrWords fuel (ptr + n + 1) ((c :: s).drop (n + 1))).map
            (·.1.str)).filter (· ≠ []) =
            ((elemsAfter ((c :: s).drop n)).map trimLws).filter (· ≠ []) := by
          have hlen : ((c :: s).drop (n + 1)).length ≤ fuel := by
            rw [List.drop_succ_cons, List.length_drop]
            exact (Nat.sub_le _ n).trans hs
          rw [ih _ _ hlen, ← List.tail_drop]
          rcases (c :: s).drop n with - | ⟨x, t⟩
          · rfl
          · rfl
        show List.filter _ (_ :: List.map _ _) = List.filter _ (trimLws _ :: List.map _ _)
        rw [trimLws_not_blank s n hlws, List.filter_cons, List.filter_cons, hafter]

/-! ### Transfer-Encoding -/

def isChunked (w : CStr) : Bool := isteqi w (bytes "chunked")

/-- The last word of a value is "chunked". -/
def lastChunked (v : Ist) : Bool := (v.words.getLast?).elim false fun w => isChunked w.1.str

theorem foldl_last {α : Type*} (f : α → Bool) (b : Bool) (l : List α) :
    l.foldl (fun _ x => f x) b = (l.getLast?).elim b f := by
  rcases List.eq_nil_or_concat l with rfl | ⟨l, x, rfl⟩
  · rfl
  · rw [List.concat_eq_append, List.foldl_append, List.getLast?_concat]
    rfl

theorem h1ParseXferEncHeader_flags (h1m : H1m) (v : Ist) :
    (h1ParseXferEncHeader h1m v).flags =
      { h1m.flags with xferEnc := true, chnk := lastChunked v } := by
  have hlast : v.words.foldl (fun _ word => isteqi word.1.str (bytes "chunked")) false =
      lastChunked v := foldl_last _ false v.words
  rw [h1ParseXferEncHeader, hlast]

/-- **If the last word is "chunked"**, the last coding is. -/
theorem codings_of_lastChunked {v : Ist} (h : lastChunked v = true) :
    ((codings v.str).getLast?).elim false isChunked = true := by
  have hwords : ((v.words).map (·.1.str)).filter (· ≠ []) = codings v.str :=
    hdrWords_codings _ v.ptr v.str (Nat.le_refl _)
  unfold lastChunked at h
  rw [← hwords]
  rcases List.eq_nil_or_concat v.words with hnil | ⟨l, w, hl⟩
  · rw [hnil] at h
    cases h
  · rw [hl, List.concat_eq_append] at h ⊢
    rw [List.getLast?_concat] at h
    have h : isChunked w.1.str = true := h
    have hne : w.1.str ≠ [] := by
      intro hnil
      rw [hnil] at h
      exact absurd h (by decide)
    rw [List.map_append, List.filter_append, List.map_singleton, List.filter_singleton,
      decide_eq_true hne, cond_true, List.getLast?_concat]
    exact h

/-! ### Content-Length -/

/-- The flags for the transfer codings, and whether the message is a response. -/
def H1m.SameCodings (m m' : H1m) : Prop :=
  m'.flags.xferEnc = m.flags.xferEnc ∧ m'.flags.chnk = m.flags.chnk ∧
    m'.flags.resp = m.flags.resp

theorem contLenStore_same (h1m : H1m) (value word : Ist) (cl : UInt64)
    (k : H1m × Ist → ContLenEnd) (hk : ∀ r : H1m × Ist, r.1.SameCodings (k r).2.1) :
    h1m.SameCodings ((contLenStore h1m word cl).elim (false, h1m, value) k).2.1 := by
  unfold contLenStore
  by_cases h : h1m.flags.clen ∧ cl ≠ h1m.bodyLen
  · rw [if_pos h]
    exact ⟨rfl, rfl, rfl⟩
  · rw [if_neg h]
    exact hk ({ h1m with flags := { h1m.flags with clen := true }, currLen := cl, bodyLen := cl },
      word)

/-- The loops for a Content-Length do not touch the transfer codings. -/
theorem contLen_same (s : CStr) :
    (∀ h1m value ptr, H1m.SameCodings h1m (contLenWord h1m value ptr s).2.1) ∧
      (∀ h1m value word cl ptr,
        H1m.SameCodings h1m (contLenDigits h1m value word cl ptr s).2.1) ∧
      ∀ h1m value word cl ptr,
        H1m.SameCodings h1m (contLenBlanks h1m value word cl ptr s).2.1 := by
  have hend (h1m : H1m) (value word : Ist) (cl : UInt64) :
      h1m.SameCodings
        ((contLenStore h1m word cl).elim (false, h1m, value) fun r => (true, r)).2.1 :=
    contLenStore_same h1m value word cl _ fun r => ⟨rfl, rfl, rfl⟩
  induction s with
  | nil =>
    refine ⟨fun h1m value ptr => ⟨rfl, rfl, rfl⟩, fun h1m value word cl ptr => ?_,
      fun h1m value word cl ptr => ?_⟩
    · exact hend h1m value word cl
    · exact hend h1m value word cl
  | cons c s ih =>
    obtain ⟨hword, hdigits, hblanks⟩ := ih
    refine ⟨fun h1m value ptr => ?_, fun h1m value word cl ptr => ?_,
      fun h1m value word cl ptr => ?_⟩
    · rw [contLenWord]
      split_ifs
      · exact hword _ _ _
      · rcases contLenDigit 0 c with - | cl
        · exact ⟨rfl, rfl, rfl⟩
        · exact hdigits _ _ _ _ _
      · exact ⟨rfl, rfl, rfl⟩
    · rw [contLenDigits]
      split_ifs
      · rcases contLenDigit cl c with - | cl
        · exact ⟨rfl, rfl, rfl⟩
        · exact hdigits _ _ _ _ _
      · exact hblanks _ _ _ _ _
      · exact contLenStore_same h1m value word cl _ fun r => hword _ _ _
      · exact ⟨rfl, rfl, rfl⟩
    · rw [contLenBlanks]
      split_ifs
      · exact hblanks _ _ _ _ _
      · exact contLenStore_same h1m value word cl _ fun r => hword _ _ _
      · exact ⟨rfl, rfl, rfl⟩

theorem contLenTaken_unique {m n : ℕ} {s : CStr} (hs : ¬Blank s) (hm : ContLenTaken m s)
    (hn : ContLenTaken n s) : m = n := by
  have hfield {f : CStr} (hm : FieldTaken m f) (hn : FieldTaken n f) : m = n :=
    Option.some.inj (((fieldTaken_iff hm.1 m).mp hm).symm.trans ((fieldTaken_iff hm.1 n).mp hn))
  obtain ⟨f, r, rfl, hf, hr⟩ := exists_span (fun c => !(c == 44)) s
  have hf : ∀ c ∈ f, (c == 44) = false := fun c hc => (Bool.not_eq_true' _).mp (hf c hc)
  rcases hr with rfl | ⟨c, s, rfl, hc⟩
  · rw [List.append_nil] at hs hm hn
    rw [ContLenTaken, commaFields_end hf] at hm hn
    exact hfield (hm.resolve_left hs) (hn.resolve_left hs)
  · cases beq_iff_eq.mp ((Bool.not_eq_false' _).mp hc)
    rw [ContLenTaken, commaFields_comma hf, fieldsTaken_cons] at hm hn
    exact hfield hm.1 hn.1

def blankValue (v : Ist) : Bool := v.str.all httpIsLws

/-- **A Content-Length that is accepted** sets its flag, unless the value is blank. -/
theorem h1ParseContLenHeader_clen (h1m : H1m) (v : Ist)
    (h : ¬(h1ParseContLenHeader h1m v).1 < 0) :
    (h1ParseContLenHeader h1m v).2.1.flags.clen = (h1m.flags.clen || !blankValue v) := by
  have hiff (n : ℕ) := contLenWord_iff h1m v v.ptr n v.str
  unfold h1ParseContLenHeader at h ⊢
  by_cases hblank : Blank v.str
  · obtain ⟨ptr', hcall⟩ := contLenWord_blank h1m v v.ptr [] hblank
    rw [List.append_nil, contLenWord] at hcall
    have hall : blankValue v = true := List.all_eq_true.mpr hblank
    rw [hcall, hall]
    exact (Bool.or_false _).symm
  · have hall : blankValue v = false := Bool.eq_false_iff.mpr (mt List.all_eq_true.mp hblank)
    rw [hall, Bool.not_false, Bool.or_true]
    rcases hcall : contLenWord h1m v v.ptr v.str with ⟨- | -, r⟩
    · rw [hcall] at h
      exact absurd (show (-1 : ℤ) < 0 by decide) h
    · -- without a length, the value would be taken for every number
      show r.1.flags.clen = true
      by_contra hclen
      have htaken (n : ℕ) : ContLenTaken n v.str := by
        refine ((hiff n).mp ?_).2
        rw [hcall]
        exact ⟨rfl, fun hc => absurd hc hclen⟩
      exact absurd (contLenTaken_unique hblank (htaken 0) (htaken 1)) (by decide)

theorem h1ParseContLenHeader_same (h1m : H1m) (v : Ist) :
    h1m.SameCodings (h1ParseContLenHeader h1m v).2.1 := by
  have hword := (contLen_same v.str).1 h1m v v.ptr
  unfold h1ParseContLenHeader
  rcases hcall : contLenWord h1m v v.ptr v.str with ⟨- | -, r⟩
  · rwa [hcall] at hword
  · rwa [hcall] at hword

theorem h1ParseContLenHeader_skip (h1m : H1m) (v : Ist)
    (h : (h1ParseContLenHeader h1m v).1 = 0) : h1m.flags.clen = true := by
  unfold h1ParseContLenHeader at h
  by_contra hclen
  rcases hcall : contLenWord h1m v v.ptr v.str with ⟨- | -, r⟩
  · rw [hcall] at h
    cases h
  · rw [hcall, Bool.eq_false_iff.mpr hclen] at h
    cases h

/-! ### Connection and Upgrade -/

/-- The flags for the framing of the message. -/
def H1mFlags.framing (f : H1mFlags) : Bool × Bool × Bool × Bool :=
  (f.clen, f.chnk, f.xferEnc, f.resp)

theorem connectionWord_framing (value : Ist) (r : H1mFlags × CStr × ℕ) (word : Ist × ℕ) :
    (connectionWord value r word).1.framing = r.1.framing := by
  obtain ⟨flags, out, p⟩ := r
  obtain ⟨w, n⟩ := word
  dsimp only [connectionWord]
  split_ifs <;> rfl

theorem h1ParseConnectionHeader_framing (h1m : H1m) (v : Ist) :
    (h1ParseConnectionHeader h1m v).1.flags.framing = h1m.flags.framing := by
  have hfold (l : List (Ist × ℕ)) (r : H1mFlags × CStr × ℕ) :
      (l.foldl (connectionWord v) r).1.framing = r.1.framing := by
    induction l generalizing r with
    | nil => rfl
    | cons w l ih => exact (ih _).trans (connectionWord_framing v r w)
  exact hfold _ _

end SmartHAProxy
