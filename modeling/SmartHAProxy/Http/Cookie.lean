/-
`http_extract_cookie_value` of http.c: the values of a cookie in a header value.

A header value is a row of items with a semicolon or a comma between them, unless
it is quoted in the value of an item (`cookieItems`).  An item with an equal sign
is a pair of a name and a value, both without the blanks around them.  The function
finds the next pair with a name; called again from the position it returns, it
should find all of them.
-/
import SmartHAProxy.H1.Chunk

namespace SmartHAProxy

/-! ### Items -/

/-- Where a byte of a header value stands: in front of the equal sign of an item, behind it, in a
quoted string, or behind a backslash in one. -/
inductive CookiePlace
  | name
  | value
  | quoted
  | escaped
  deriving DecidableEq

def CookiePlace.next (c : UInt8) : CookiePlace → CookiePlace
  | .name => if c = 61 then .value else .name
  | .value => if c = 34 then .quoted else .value
  | .quoted => if c = 92 then .escaped else if c = 34 then .value else .quoted
  | .escaped => .quoted

def CookiePlace.ends (c : UInt8) : CookiePlace → Bool
  | .name => c == 44 || c == 59
  | .value => c == 44 || c == 59
  | .quoted => false
  | .escaped => false

def cookieItems : CookiePlace → CStr → List CStr
  | _, [] => [[]]
  | place, c :: s =>
    if place.ends c then [] :: cookieItems .name s
    else
      match cookieItems (place.next c) s with
      | [] => [[c]]
      | item :: items => (c :: item) :: items

/-- A string without the blanks at its end. -/
def trimEnd (s : CStr) : CStr := (s.reverse.dropWhile httpIsSpht).reverse

/-- A string without the blanks around it. -/
def trimSpht (s : CStr) : CStr := trimEnd (s.dropWhile httpIsSpht)

/-- The name and the value of an item, if it has an equal sign. -/
def cookiePair (item : CStr) : Option (CStr × CStr) :=
  match item.dropWhile (· != 61) with
  | [] => none
  | _ :: value => some (trimSpht (item.takeWhile (· != 61)), trimSpht value)

/-- The value of an item that is a cookie with the name; an empty name stands for all.  Attributes,
which begin with a dollar sign, are no cookies. -/
def cookieValue (name item : CStr) : Option CStr :=
  match cookiePair item with
  | none => none
  | some (n, value) => if n.head? ≠ some 36 ∧ (name = [] ∨ n = name) then some value else none

/-- **The values of the cookies with the name.** -/
def namedCookieValues (name s : CStr) : List CStr :=
  (cookieItems .name s).filterMap (cookieValue name)

/-! ### The function -/

/-- `http_find_cookie_value_end`, as the number of bytes in front of the end. -/
def httpFindCookieValueEnd (quoted qdpair : Bool) : CStr → ℕ
  | [] => 0
  | c :: s =>
    if qdpair then 1 + httpFindCookieValueEnd quoted false s
    else if quoted then
      if c = 92 then 1 + httpFindCookieValueEnd quoted true s
      else if c = 34 then 1 + httpFindCookieValueEnd false qdpair s
      else 1 + httpFindCookieValueEnd quoted qdpair s
    else if c = 34 then 1 + httpFindCookieValueEnd true qdpair s
    else if c = 44 ∨ c = 59 then 0
    else 1 + httpFindCookieValueEnd quoted qdpair s

/-- The loop for the equal sign: `equal` and `att_end`. -/
def scanCookieName (list : Bool) : ℕ → ℕ → CStr → ℕ × ℕ
  | equal, attEnd, [] => (equal, attEnd)
  | equal, attEnd, c :: s =>
    if c = 61 ∨ c = 59 ∨ (list = true ∧ c = 44) then (equal, attEnd)
    else if httpIsSpht c then scanCookieName list (equal + 1) attEnd s
    else scanCookieName list (equal + 1) (equal + 1) s

/-- The positions that one turn of the loop finds. -/
structure CookieTurn where
  attBeg : ℕ
  attEnd : ℕ
  equal : ℕ
  valBeg : ℕ
  valEnd : ℕ
  next : ℕ

/-- One turn: the positions in the bytes `s` from `att_beg` to `hdr_end`. -/
def cookieTurn (list : Bool) (s : CStr) : CookieTurn :=
  let attBeg := (s.takeWhile httpIsSpht).length
  let scan := scanCookieName list attBeg attBeg (s.drop attBeg)
  if s[scan.1]? = some 61 then
    let valBeg := scan.1 + 1 + ((s.drop (scan.1 + 1)).takeWhile httpIsSpht).length
    let next := valBeg + httpFindCookieValueEnd false false (s.drop valBeg)
    { attBeg := attBeg
      attEnd := scan.2
      equal := scan.1
      valBeg := valBeg
      valEnd := valBeg + (trimEnd ((s.take next).drop valBeg)).length
      next := next }
  else ⟨attBeg, scan.2, scan.1, scan.1, scan.1, scan.1⟩

/-- `http_extract_cookie_value` for the bytes `s` from `att_beg` to `hdr_end`, with `off` as the
position of `att_beg`: the position and the length of the value, and the position to go on from.
A byte at `hdr_end` may not be read. -/
def httpExtractCookieValue (list : Bool) (name : CStr) (off : ℕ) (s : CStr) :
    Except Fault (Option (ℕ × ℕ × ℕ)) :=
  if _h : s.length ≤ name.length + 1 then .ok none
  else
    let t := cookieTurn list s
    match s[t.attBeg]? with
    | none => .error .outOfBounds
    | some c =>
      if c = 36 then httpExtractCookieValue list name (off + t.next + 1) (s.drop (t.next + 1))
      else if t.equal = t.next then
        httpExtractCookieValue list name (off + t.next + 1) (s.drop (t.next + 1))
      else if name = [] ∨ (s.take t.attEnd).drop t.attBeg = name then
        .ok (some (off + t.valBeg, t.valEnd - t.valBeg, off + t.next + 1))
      else if list then
        httpExtractCookieValue list name (off + t.next + 1) (s.drop (t.next + 1))
      else .ok none
termination_by s.length
decreasing_by all_goals (rw [List.length_drop]; omega)

/-- Calls with `list` set, each from the position that the one before has returned, up to the one
that finds nothing: they find these values. -/
inductive CookieCalls (name : CStr) : CStr → List CStr → Prop
  | done {s : CStr} : httpExtractCookieValue true name 0 s = .ok none → CookieCalls name s []
  | found {s : CStr} {value len next : ℕ} {values : List CStr} :
      httpExtractCookieValue true name 0 s = .ok (some (value, len, next)) →
      CookieCalls name (s.drop next) values →
      CookieCalls name s ((s.drop value).take len :: values)

/-! ### The first item -/

/-- The number of bytes in front of the end of the first item. -/
def itemEnd : CookiePlace → CStr → ℕ
  | _, [] => 0
  | place, c :: s => if place.ends c then 0 else itemEnd (place.next c) s + 1

def itemsAfter : CStr → List CStr
  | [] => []
  | _ :: s => cookieItems .name s

theorem cookieItems_eq (place : CookiePlace) (s : CStr) :
    cookieItems place s = s.take (itemEnd place s) :: itemsAfter (s.drop (itemEnd place s)) := by
  induction s generalizing place with
  | nil => rfl
  | cons c s ih =>
    rw [cookieItems, itemEnd]
    by_cases hends : place.ends c = true
    · rw [if_pos hends, if_pos hends]
      rfl
    · rw [if_neg hends, if_neg hends, ih]
      rfl

theorem itemEnd_le (place : CookiePlace) (s : CStr) : itemEnd place s ≤ s.length := by
  induction s generalizing place with
  | nil => exact Nat.le_refl _
  | cons c s ih =>
    rw [itemEnd]
    split_ifs
    · exact Nat.zero_le _
    · exact Nat.succ_le_succ (ih _)

/-! ### What a turn finds -/

def isNameByte (c : UInt8) : Bool := c != 61 && !(c == 44 || c == 59)

theorem isNameByte_of_spht {c : UInt8} (h : httpIsSpht c = true) : isNameByte c = true := by
  rcases Bool.or_eq_true_iff.mp h with h | h
  · rw [eq_of_beq h]
    rfl
  · rw [eq_of_beq h]
    rfl

theorem trimEnd_cons (c : UInt8) (s : CStr) :
    trimEnd (c :: s) = if trimEnd s = [] then (if httpIsSpht c then [] else [c])
      else c :: trimEnd s := by
  rw [trimEnd, List.reverse_cons, List.dropWhile_append]
  by_cases hnil : s.reverse.dropWhile httpIsSpht = []
  · have htrim : trimEnd s = [] := by rw [trimEnd, hnil, List.reverse_nil]
    rw [hnil, if_pos htrim]
    simp only [List.isEmpty_nil, if_true, List.dropWhile_cons, List.dropWhile_nil]
    cases httpIsSpht c <;> rfl
  · have htrim : trimEnd s ≠ [] := by
      rw [trimEnd]
      exact mt List.reverse_eq_nil_iff.mp hnil
    rw [if_neg htrim, if_neg (by simpa using hnil), List.reverse_append]
    rfl

/-- The value ends where the item does. -/
theorem findCookieValueEnd_eq (s : CStr) :
    httpFindCookieValueEnd false false s = itemEnd .value s ∧
      httpFindCookieValueEnd true false s = itemEnd .quoted s ∧
      httpFindCookieValueEnd true true s = itemEnd .escaped s := by
  induction s with
  | nil => exact ⟨rfl, rfl, rfl⟩
  | cons c s ih =>
    obtain ⟨hvalue, hquoted, hescaped⟩ := ih
    refine ⟨?_, ?_, ?_⟩
    · rw [httpFindCookieValueEnd, itemEnd]
      by_cases hquote : c = 34
      · subst hquote
        show 1 + httpFindCookieValueEnd true false s = itemEnd .quoted s + 1
        rw [hquoted, Nat.add_comm]
      · by_cases hdelim : c = 44 ∨ c = 59
        · have hends : CookiePlace.value.ends c = true := by
            rcases hdelim with rfl | rfl <;> rfl
          rw [if_pos hends, if_neg Bool.false_ne_true, if_neg Bool.false_ne_true, if_neg hquote,
            if_pos hdelim]
        · have hends : ¬ CookiePlace.value.ends c = true := by
            rw [CookiePlace.ends, Bool.or_eq_true, beq_iff_eq, beq_iff_eq]
            exact hdelim
          have hnext : CookiePlace.value.next c = .value := if_neg hquote
          rw [if_neg hends, if_neg Bool.false_ne_true, if_neg Bool.false_ne_true, if_neg hquote,
            if_neg hdelim, hnext, hvalue, Nat.add_comm]
    · rw [httpFindCookieValueEnd, itemEnd, if_neg Bool.false_ne_true, if_pos rfl]
      rw [if_neg (show ¬ CookiePlace.quoted.ends c = true from Bool.false_ne_true)]
      show _ = itemEnd (if c = 92 then .escaped else if c = 34 then .value else .quoted) s + 1
      split_ifs
      · rw [hescaped, Nat.add_comm]
      · rw [hvalue, Nat.add_comm]
      · rw [hquoted, Nat.add_comm]
    · show 1 + httpFindCookieValueEnd true false s = itemEnd .quoted s + 1
      rw [hquoted, Nat.add_comm]

theorem itemEnd_blanks {place : CookiePlace} (hplace : place = .name ∨ place = .value) {w : CStr}
    (hw : ∀ c ∈ w, httpIsSpht c = true) (s : CStr) :
    itemEnd place (w ++ s) = w.length + itemEnd place s := by
  induction w with
  | nil => exact (Nat.zero_add _).symm
  | cons c w ih =>
    obtain ⟨hc, hw⟩ := List.forall_mem_cons.mp hw
    have hstay : place.ends c = false ∧ place.next c = place := by
      rcases Bool.or_eq_true_iff.mp hc with hc | hc
      · rw [eq_of_beq hc]
        rcases hplace with rfl | rfl <;> exact ⟨rfl, rfl⟩
      · rw [eq_of_beq hc]
        rcases hplace with rfl | rfl <;> exact ⟨rfl, rfl⟩
    rw [List.cons_append, itemEnd, if_neg (by rw [hstay.1]; exact Bool.false_ne_true), hstay.2,
      ih hw, List.length_cons]
    omega

theorem itemEnd_name {n : CStr} (hn : ∀ c ∈ n, isNameByte c = true) (s : CStr) :
    itemEnd .name (n ++ s) = n.length + itemEnd .name s := by
  induction n with
  | nil => exact (Nat.zero_add _).symm
  | cons c n ih =>
    obtain ⟨hc, hn⟩ := List.forall_mem_cons.mp hn
    obtain ⟨heq, hends⟩ := Bool.and_eq_true_iff.mp hc
    have hends' : CookiePlace.name.ends c = false := by
      rw [Bool.not_eq_true'] at hends
      exact hends
    have hnext : CookiePlace.name.next c = .name := if_neg (bne_iff_ne.mp heq)
    rw [List.cons_append, itemEnd, hends', hnext, ih hn, List.length_cons]
    simp only [Bool.false_eq_true, if_false]
    omega

/-- The loop for the equal sign stops at the end of the name, behind which there may be blanks. -/
theorem scanCookieName_eq (e a : ℕ) (s : CStr) :
    scanCookieName true e a s = (e + (s.takeWhile isNameByte).length,
      if trimEnd (s.takeWhile isNameByte) = [] then a
      else e + (trimEnd (s.takeWhile isNameByte)).length) := by
  induction s generalizing e a with
  | nil => rfl
  | cons c s ih =>
    rw [scanCookieName, List.takeWhile_cons]
    cases hname : isNameByte c with
    | false =>
      have hstop : c = 61 ∨ c = 59 ∨ (true = true ∧ c = 44) := by
        rw [isNameByte, Bool.and_eq_false_iff, Bool.not_eq_false', Bool.or_eq_true, beq_iff_eq,
          beq_iff_eq] at hname
        rcases hname with h | h | h
        · exact .inl (bne_eq_false_iff_eq.mp h)
        · exact .inr (.inr ⟨rfl, h⟩)
        · exact .inr (.inl h)
      rw [if_pos hstop]
      rfl
    | true =>
      have hstop : ¬ (c = 61 ∨ c = 59 ∨ (true = true ∧ c = 44)) := by
        rintro (rfl | rfl | ⟨-, rfl⟩) <;> exact absurd hname Bool.false_ne_true
      rw [if_neg hstop, if_pos rfl, List.length_cons, trimEnd_cons]
      cases hblank : httpIsSpht c with
      | true =>
        rw [if_pos rfl, if_pos rfl, ih]
        refine Prod.ext (by omega) ?_
        by_cases hnil : trimEnd (s.takeWhile isNameByte) = []
        · simp only [if_pos hnil, if_true]
        · simp only [if_neg hnil, List.cons_ne_nil, if_false, List.length_cons]
          omega
      | false =>
        rw [if_neg Bool.false_ne_true, if_neg Bool.false_ne_true, ih]
        refine Prod.ext (by omega) ?_
        by_cases hnil : trimEnd (s.takeWhile isNameByte) = []
        · simp only [if_pos hnil, List.cons_ne_nil, if_false]
          rfl
        · simp only [if_neg hnil, List.cons_ne_nil, if_false, List.length_cons]
          omega

/-- The blanks, the name and the rest of a header value. -/
structure CookieParts (s w n r : CStr) : Prop where
  eq : s = w ++ (n ++ r)
  blanks : ∀ c ∈ w, httpIsSpht c = true
  first : ∀ c, (n ++ r).head? = some c → httpIsSpht c = false
  name : ∀ c ∈ n, isNameByte c = true
  stop : ∀ c, r.head? = some c → isNameByte c = false

theorem head?_dropWhile_eq_false {p : UInt8 → Bool} {s : CStr} {c : UInt8}
    (h : (s.dropWhile p).head? = some c) : p c = false := by
  have hnot := List.head?_dropWhile_not p s
  rw [h] at hnot
  simpa using hnot

theorem exists_cookieParts (s : CStr) : ∃ w n r, CookieParts s w n r := by
  refine ⟨s.takeWhile httpIsSpht, (s.dropWhile httpIsSpht).takeWhile isNameByte,
    (s.dropWhile httpIsSpht).dropWhile isNameByte, ?_, ?_, ?_, ?_, ?_⟩
  · rw [List.takeWhile_append_dropWhile, List.takeWhile_append_dropWhile]
  · exact fun c hc => List.mem_takeWhile_imp hc
  · intro c hc
    rw [List.takeWhile_append_dropWhile] at hc
    exact head?_dropWhile_eq_false hc
  · exact fun c hc => List.mem_takeWhile_imp hc
  · exact fun c hc => head?_dropWhile_eq_false hc

theorem takeWhile_append_stop {p : UInt8 → Bool} {w r : CStr} (hw : ∀ c ∈ w, p c = true)
    (hr : ∀ c, r.head? = some c → p c = false) :
    (w ++ r).takeWhile p = w ∧ (w ++ r).dropWhile p = r := by
  rw [List.takeWhile_append_of_pos hw, List.dropWhile_append_of_pos hw]
  rcases r with - | ⟨c, r⟩
  · exact ⟨List.append_nil w, rfl⟩
  · have hc : ¬ p c = true := Bool.eq_false_iff.mp (hr c rfl)
    rw [List.takeWhile_cons_of_neg hc, List.dropWhile_cons_of_neg hc, List.append_nil]
    exact ⟨rfl, rfl⟩

theorem exists_trimEnd_append (s : CStr) : ∃ b, s = trimEnd s ++ b := by
  refine ⟨(s.reverse.takeWhile httpIsSpht).reverse, ?_⟩
  rw [trimEnd, ← List.reverse_append, List.takeWhile_append_dropWhile, List.reverse_reverse]

theorem slice_eq {s w u : CStr} {k : ℕ} (hs : s = w ++ u) :
    (s.take (w.length + k)).drop w.length = u.take k := by
  rw [hs, List.take_length_add_append, List.drop_left]

theorem take_trimEnd {u x : CStr} (b : CStr) (hu : u = x ++ b) :
    u.take (trimEnd x).length = trimEnd x := by
  obtain ⟨b', hx⟩ := exists_trimEnd_append x
  rw [hu]
  generalize trimEnd x = y at hx
  rw [hx, List.append_assoc, List.take_left]

theorem trimSpht_blanks {w x : CStr} (hw : ∀ c ∈ w, httpIsSpht c = true)
    (hx : ∀ c, x.head? = some c → httpIsSpht c = false) : trimSpht (w ++ x) = trimEnd x := by
  rw [trimSpht, (takeWhile_append_stop hw hx).2]

theorem head?_trimEnd {n : CStr} (hn : ∀ c, n.head? = some c → httpIsSpht c = false) :
    (trimEnd n).head? = n.head? := by
  rcases n with - | ⟨c, n⟩
  · rfl
  · rw [trimEnd_cons, hn c rfl]
    by_cases hnil : trimEnd n = []
    · rw [if_pos hnil]
      rfl
    · rw [if_neg hnil]
      rfl

section Turn

variable {s w n r : CStr}

theorem CookieParts.attBeg_eq (h : CookieParts s w n r) :
    (cookieTurn true s).attBeg = w.length ∧ s.takeWhile httpIsSpht = w ∧
      s.drop w.length = n ++ r := by
  have hw : s.takeWhile httpIsSpht = w := by
    rw [h.eq]
    exact (takeWhile_append_stop h.blanks h.first).1
  refine ⟨?_, hw, ?_⟩
  · have hbeg : (cookieTurn true s).attBeg = (s.takeWhile httpIsSpht).length := by
      rw [cookieTurn]
      dsimp only
      split_ifs <;> rfl
    rw [hbeg, hw]
  · rw [h.eq, List.drop_left]

theorem CookieParts.scan_eq (h : CookieParts s w n r) :
    ∃ attEnd, scanCookieName true w.length w.length (s.drop w.length)
        = (w.length + n.length, attEnd) ∧ (s.take attEnd).drop w.length = trimEnd n := by
  rw [h.attBeg_eq.2.2, scanCookieName_eq, (takeWhile_append_stop h.name h.stop).1]
  refine ⟨_, rfl, ?_⟩
  by_cases hnil : trimEnd n = []
  · rw [if_pos hnil, hnil, List.drop_take_self]
  · rw [if_neg hnil, slice_eq h.eq, take_trimEnd r rfl]

theorem CookieParts.getElem?_equal (h : CookieParts s w n r) :
    s[w.length + n.length]? = r.head? := by
  rw [← List.head?_drop, ← List.drop_drop, h.attBeg_eq.2.2, List.drop_left]

theorem CookieParts.itemEnd_eq (h : CookieParts s w n r) :
    itemEnd .name s = w.length + n.length + itemEnd .name r := by
  rw [h.eq, itemEnd_blanks (.inl rfl) h.blanks, itemEnd_name h.name, Nat.add_assoc]

theorem CookieParts.turn_of_ne (h : CookieParts s w n r) (hr : r.head? ≠ some 61) :
    (cookieTurn true s).equal = (cookieTurn true s).next ∧
      (cookieTurn true s).next = itemEnd .name s ∧
      cookiePair (s.take (itemEnd .name s)) = none := by
  obtain ⟨hbeg, htake, hdrop⟩ := h.attBeg_eq
  obtain ⟨attEnd, hscan, -⟩ := h.scan_eq
  have hend : itemEnd .name r = 0 := by
    rcases r with - | ⟨c, v⟩
    · rfl
    · have hstop := h.stop c rfl
      rw [isNameByte, Bool.and_eq_false_iff, Bool.not_eq_false'] at hstop
      have hne : c ≠ 61 := fun heq => hr (congrArg some heq)
      rw [itemEnd, if_pos]
      exact hstop.resolve_left (by rw [bne_iff_ne.mpr hne]; exact Bool.noConfusion)
  have hturn : cookieTurn true s = ⟨w.length, attEnd, w.length + n.length, w.length + n.length,
      w.length + n.length, w.length + n.length⟩ := by
    rw [cookieTurn]
    simp only [htake, hscan, h.getElem?_equal, if_neg hr]
  have hlen : itemEnd .name s = w.length + n.length := by rw [h.itemEnd_eq, hend]; rfl
  rw [hturn, hlen]
  refine ⟨rfl, rfl, ?_⟩
  have hitem : s.take (w.length + n.length) = w ++ n := by
    rw [h.eq, ← List.append_assoc, ← List.length_append, List.take_left]
  have hall : ∀ c ∈ w ++ n, (c != 61) = true := by
    intro c hc
    have hname : isNameByte c = true := by
      rcases List.mem_append.mp hc with hc | hc
      · exact isNameByte_of_spht (h.blanks c hc)
      · exact h.name c hc
    exact (Bool.and_eq_true_iff.mp hname).1
  rw [hitem, cookiePair, List.dropWhile_eq_nil_iff.mpr hall]

/-- An item with an equal sign is the pair that the turn has found. -/
theorem CookieParts.turn_of_eq {v : CStr} (h : CookieParts s w n (61 :: v)) :
    (cookieTurn true s).equal ≠ (cookieTurn true s).next ∧
      (cookieTurn true s).next = itemEnd .name s ∧
      cookiePair (s.take (itemEnd .name s)) = some (trimEnd n,
        (s.drop (cookieTurn true s).valBeg).take
          ((cookieTurn true s).valEnd - (cookieTurn true s).valBeg)) ∧
      (s.take (cookieTurn true s).attEnd).drop (cookieTurn true s).attBeg = trimEnd n := by
  obtain ⟨hbeg, htake, hdrop⟩ := h.attBeg_eq
  obtain ⟨attEnd, hscan, hname⟩ := h.scan_eq
  have hv : s.drop (w.length + n.length + 1) = v := by
    rw [Nat.add_assoc, ← List.drop_drop, hdrop, ← List.drop_drop, List.drop_left]
    rfl
  -- the blanks in front of the value
  obtain ⟨b, v', rfl, hb, hv'⟩ : ∃ b v', v = b ++ v' ∧ (∀ c ∈ b, httpIsSpht c = true) ∧
      ∀ c, v'.head? = some c → httpIsSpht c = false :=
    ⟨v.takeWhile httpIsSpht, v.dropWhile httpIsSpht, List.takeWhile_append_dropWhile.symm,
      fun c hc => List.mem_takeWhile_imp hc, fun c hc => head?_dropWhile_eq_false hc⟩
  have htb : (b ++ v').takeWhile httpIsSpht = b := (takeWhile_append_stop hb hv').1
  have hdv : s.drop (w.length + n.length + 1 + b.length) = v' := by
    rw [← List.drop_drop, hv, List.drop_left]
  have hturn : cookieTurn true s =
      { attBeg := w.length
        attEnd := attEnd
        equal := w.length + n.length
        valBeg := w.length + n.length + 1 + b.length
        valEnd := w.length + n.length + 1 + b.length
          + (trimEnd (v'.take (itemEnd .value v'))).length
        next := w.length + n.length + 1 + b.length + itemEnd .value v' } := by
    rw [cookieTurn]
    simp only [htake, hscan, h.getElem?_equal, List.head?_cons, if_true, hv, htb, hdv,
      (findCookieValueEnd_eq v').1]
    have hslice : (s.take (w.length + n.length + 1 + b.length + itemEnd .value v')).drop
        (w.length + n.length + 1 + b.length) = v'.take (itemEnd .value v') := by
      rw [List.drop_take, hdv, Nat.add_sub_cancel_left]
    rw [hslice]
  have hlen : itemEnd .name s = w.length + n.length + 1 + b.length + itemEnd .value v' := by
    rw [h.itemEnd_eq]
    show _ + (itemEnd .value (b ++ v') + 1) = _
    rw [itemEnd_blanks (.inr rfl) hb]
    omega
  have hvalue : (s.drop (w.length + n.length + 1 + b.length)).take
      (trimEnd (v'.take (itemEnd .value v'))).length = trimEnd (v'.take (itemEnd .value v')) := by
    rw [hdv]
    exact take_trimEnd (v'.drop (itemEnd .value v')) (List.take_append_drop _ v').symm
  rw [hturn]
  dsimp only
  rw [Nat.add_sub_cancel_left, hvalue, hlen]
  refine ⟨by omega, rfl, ?_, hname⟩
  -- the item
  have hitem : s.take (w.length + n.length + 1 + b.length + itemEnd .value v')
      = w ++ n ++ 61 :: (b ++ v'.take (itemEnd .value v')) := by
    have hs : s = (w ++ n) ++ (61 :: (b ++ v')) := by rw [h.eq, List.append_assoc]
    have hsum : w.length + n.length + 1 + b.length + itemEnd .value v'
        = (w ++ n).length + (1 + (b.length + itemEnd .value v')) := by
      rw [List.length_append]
      omega
    rw [hs, hsum, List.take_length_add_append, Nat.add_comm 1, List.take_succ_cons,
      List.take_length_add_append]
  have hall : ∀ c ∈ w ++ n, (c != 61) = true := by
    intro c hc
    have hbyte : isNameByte c = true := by
      rcases List.mem_append.mp hc with hc | hc
      · exact isNameByte_of_spht (h.blanks c hc)
      · exact h.name c hc
    exact (Bool.and_eq_true_iff.mp hbyte).1
  have hstop : ∀ c, (61 :: (b ++ v'.take (itemEnd .value v'))).head? = some c →
      (c != 61) = false := by
    rintro c ⟨⟩
    rfl
  have hnfirst : ∀ c, n.head? = some c → httpIsSpht c = false := by
    intro c hc
    apply h.first c
    rw [List.head?_append, hc]
    rfl
  have hvfirst : ∀ c, (v'.take (itemEnd .value v')).head? = some c → httpIsSpht c = false := by
    intro c hc
    apply hv' c
    rcases v' with - | ⟨d, v'⟩
    · exact hc
    · rcases hk : itemEnd .value (d :: v') with - | k
      · rw [hk] at hc
        exact nomatch hc
      · rw [hk] at hc
        exact hc
  rw [hitem, cookiePair, (takeWhile_append_stop hall hstop).1, (takeWhile_append_stop hall hstop).2]
  dsimp only
  rw [trimSpht_blanks h.blanks hnfirst, trimSpht_blanks hb hvfirst]

end Turn

end SmartHAProxy
