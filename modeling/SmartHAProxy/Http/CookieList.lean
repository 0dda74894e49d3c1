/-
Repeated calls of `http_extract_cookie_value` find the cookies of a header value.

The loop goes on while more than the name and one byte are left, so that an item
at the end which is the name and the equal sign alone is not looked at.  It skips
the blanks in front of an item and looks at the next byte, even if there is none.

Main result: `cookie_values_iff`.
-/
import SmartHAProxy.Http.Cookie

namespace SmartHAProxy

variable {name s : CStr}

/-! ### Items -/

def lastItem (s : CStr) : CStr := (cookieItems .name s).getLastD []

/-- The item is a cookie without a value, and has no byte but its name and the equal sign. -/
def IsBareItem (name item : CStr) : Prop := item = name ++ [61] ∧ cookieValue name item ≠ none

/-- The item is at least two blanks longer than the name, and only blanks. -/
def IsBlankItem (name item : CStr) : Prop :=
  name.length + 2 ≤ item.length ∧ ∀ c ∈ item, httpIsSpht c = true

theorem cookieItems_cases (s : CStr) :
    (itemEnd .name s = s.length ∧ cookieItems .name s = [s]) ∨
      (itemEnd .name s < s.length ∧ cookieItems .name s = s.take (itemEnd .name s) ::
        cookieItems .name (s.drop (itemEnd .name s + 1))) := by
  rw [cookieItems_eq]
  rcases Nat.lt_or_eq_of_le (itemEnd_le .name s) with hlt | heq
  · right
    refine ⟨hlt, ?_⟩
    rw [List.drop_eq_getElem_cons hlt]
    rfl
  · left
    rw [heq, List.take_length, List.drop_length]
    exact ⟨rfl, rfl⟩

theorem cookieItems_ne_nil (place : CookiePlace) (s : CStr) : cookieItems place s ≠ [] := by
  rw [cookieItems_eq]
  exact List.cons_ne_nil _ _

theorem lastItem_mem (s : CStr) : lastItem s ∈ cookieItems .name s := by
  rw [lastItem, List.getLastD_eq_getLast?, List.getLast?_eq_some_getLast (cookieItems_ne_nil _ _)]
  exact List.getLast_mem _

theorem length_item (s : CStr) : ∀ item ∈ cookieItems .name s,
    (item = s ∧ cookieItems .name s = [s]) ∨ item.length < s.length := by
  induction hn : s.length using Nat.strong_induction_on generalizing s with
  | _ n ih =>
    subst hn
    intro item hitem
    rcases cookieItems_cases s with ⟨-, hone⟩ | ⟨hlt, hcons⟩
    · rw [hone] at hitem
      exact .inl ⟨List.mem_singleton.mp hitem, hone⟩
    · right
      rw [hcons] at hitem
      rcases List.mem_cons.mp hitem with rfl | hitem
      · rw [List.length_take]
        omega
      · have hrest : (s.drop (itemEnd .name s + 1)).length = s.length - (itemEnd .name s + 1) :=
          List.length_drop
        rcases ih _ (by omega) _ rfl item hitem with ⟨rfl, -⟩ | hlen
        · omega
        · omega

theorem namedCookieValues_eq (name s : CStr) : namedCookieValues name s =
    (cookieValue name (s.take (itemEnd .name s))).toList ++
      namedCookieValues name (s.drop (itemEnd .name s + 1)) := by
  rw [namedCookieValues]
  rcases cookieItems_cases s with ⟨heq, hone⟩ | ⟨-, hcons⟩
  · have hrest : s.drop (itemEnd .name s + 1) = [] := List.drop_eq_nil_of_le (by omega)
    have htake : s.take (itemEnd .name s) = s := List.take_of_length_le (by omega)
    rw [hone, hrest, htake, List.filterMap_cons]
    rcases cookieValue name s with - | value
    · rfl
    · rfl
  · rw [hcons, List.filterMap_cons]
    rcases cookieValue name (s.take (itemEnd .name s)) with - | value
    · rfl
    · rfl

theorem lastItem_eq (s : CStr) : lastItem s =
    if itemEnd .name s < s.length then lastItem (s.drop (itemEnd .name s + 1)) else s := by
  rcases cookieItems_cases s with ⟨heq, hone⟩ | ⟨hlt, hcons⟩
  · rw [if_neg (by omega), lastItem, hone]
    rfl
  · rw [if_pos hlt, lastItem, hcons, lastItem]
    rcases hrest : cookieItems .name (s.drop (itemEnd .name s + 1)) with - | ⟨item, items⟩
    · exact absurd hrest (cookieItems_ne_nil _ _)
    · rfl

/-- A cookie has at least its name and the equal sign. -/
theorem length_of_cookieValue {item : CStr} (h : cookieValue name item ≠ none) :
    name.length + 1 ≤ item.length ∧ (item.length = name.length + 1 → item = name ++ [61]) := by
  rw [cookieValue] at h
  rcases hpair : cookiePair item with - | ⟨n, value⟩
  · rw [hpair] at h
    exact absurd rfl h
  rw [hpair] at h
  have hcond : name = [] ∨ n = name := by
    by_contra hne
    exact h (if_neg fun hc => hne hc.2)
  rw [cookiePair] at hpair
  rcases hdrop : item.dropWhile (· != 61) with - | ⟨c, v⟩
  · rw [hdrop] at hpair
    cases hpair
  rw [hdrop] at hpair
  obtain ⟨hn, -⟩ := Prod.mk.inj (Option.some.inj hpair)
  have hitem : item = item.takeWhile (· != 61) ++ c :: v := by
    rw [← hdrop, List.takeWhile_append_dropWhile]
  have hc : c = 61 := by
    have hhead : (item.dropWhile (· != 61)).head? = some c := by rw [hdrop, List.head?_cons]
    exact bne_eq_false_iff_eq.mp (head?_dropWhile_eq_false (p := (· != 61)) hhead)
  have hlen : item.length = (item.takeWhile (· != 61)).length + (v.length + 1) := by
    conv_lhs => rw [hitem]
    rw [List.length_append, List.length_cons]
  have htrim (x : CStr) : (trimSpht x).length ≤ x.length := by
    rw [trimSpht, trimEnd, List.length_reverse]
    refine (List.dropWhile_sublist _).length_le.trans ?_
    rw [List.length_reverse]
    exact (List.dropWhile_sublist _).length_le
  have hname : name.length ≤ (item.takeWhile (· != 61)).length := by
    rcases hcond with rfl | rfl
    · exact Nat.zero_le _
    · rw [← hn]
      exact htrim _
  refine ⟨by omega, fun heq => ?_⟩
  have hv : v = [] := List.length_eq_zero_iff.mp (by omega)
  have hsame : item.takeWhile (· != 61) = name := by
    rcases hcond with rfl | rfl
    · rw [List.length_nil] at heq
      exact List.length_eq_zero_iff.mp (by omega)
    · -- nothing has been trimmed
      rw [← hn] at heq ⊢
      generalize item.takeWhile (· != 61) = x at *
      have hd : x.dropWhile httpIsSpht = x := by
        refine (List.dropWhile_sublist _).eq_of_length_le ?_
        have h1 : (trimSpht x).length ≤ (x.dropWhile httpIsSpht).length := by
          rw [trimSpht, trimEnd, List.length_reverse]
          refine (List.dropWhile_sublist _).length_le.trans ?_
          rw [List.length_reverse]
        omega
      rw [trimSpht, hd, trimEnd]
      rw [trimSpht, hd, trimEnd, List.length_reverse] at heq
      have hr : x.reverse.dropWhile httpIsSpht = x.reverse := by
        refine (List.dropWhile_sublist _).eq_of_length_le ?_
        rw [List.length_reverse]
        omega
      rw [hr, List.reverse_reverse]
  conv_lhs => rw [hitem, hsame, hc, hv]

/-! ### Calls -/

/-- A call from another position. -/
theorem httpExtractCookieValue_off (list : Bool) (name : CStr) (off : ℕ) (s : CStr) :
    httpExtractCookieValue list name off s = (httpExtractCookieValue list name 0 s).map
      (Option.map fun r => (off + r.1, r.2.1, off + r.2.2)) := by
  induction hn : s.length using Nat.strong_induction_on generalizing s off with
  | _ n ih =>
    subst hn
    rw [httpExtractCookieValue, httpExtractCookieValue]
    by_cases hshort : s.length ≤ name.length + 1
    · rw [dif_pos hshort, dif_pos hshort]
      rfl
    rw [dif_neg hshort, dif_neg hshort]
    dsimp only
    have hnext := ih (s.drop ((cookieTurn list s).next + 1)).length (by
      rw [List.length_drop]
      omega) 
    generalize cookieTurn list s = t at *
    have hmap (off' : ℕ) : httpExtractCookieValue list name (off + t.next + 1)
          (s.drop (t.next + 1))
        = (httpExtractCookieValue list name (0 + t.next + 1) (s.drop (t.next + 1))).map
          (Option.map fun r => (off + r.1, r.2.1, off + r.2.2)) := by
      rw [hnext (off + t.next + 1) _ rfl, hnext (0 + t.next + 1) _ rfl]
      rcases httpExtractCookieValue list name 0 (s.drop (t.next + 1)) with e | - | ⟨v, l, k⟩
      · rfl
      · rfl
      · show Except.ok (some (_, _, _)) = Except.ok (some (_, _, _))
        rw [show off + t.next + 1 + v = off + (0 + t.next + 1 + v) by omega,
          show off + t.next + 1 + k = off + (0 + t.next + 1 + k) by omega]
    rcases s[t.attBeg]? with - | c
    · rfl
    · dsimp only
      split_ifs
      · exact hmap 0
      · exact hmap 0
      · show Except.ok (some (_, _, _)) = Except.ok (some (_, _, _))
        rw [show off + t.valBeg = off + (0 + t.valBeg) by omega,
          show off + t.next + 1 = off + (0 + t.next + 1) by omega]
      · exact hmap 0
      · rfl

theorem cookieCalls_iff_of_none (h : httpExtractCookieValue true name 0 s = .ok none)
    (values : List CStr) : CookieCalls name s values ↔ values = [] := by
  constructor
  · intro hcalls
    cases hcalls with
    | done _ => rfl
    | found hcall _ => exact nomatch h.symm.trans hcall
  · rintro rfl
    exact .done h

theorem cookieCalls_iff_of_some {value len next : ℕ}
    (h : httpExtractCookieValue true name 0 s = .ok (some (value, len, next)))
    (values : List CStr) : CookieCalls name s values ↔
      ∃ rest, values = (s.drop value).take len :: rest ∧ CookieCalls name (s.drop next) rest := by
  constructor
  · intro hcalls
    cases hcalls with
    | done hcall => exact nomatch h.symm.trans hcall
    | found hcall hrest =>
      cases h.symm.trans hcall
      exact ⟨_, rfl, hrest⟩
  · rintro ⟨rest, rfl, hrest⟩
    exact .found h hrest

theorem not_cookieCalls_of_error {e : Fault}
    (h : httpExtractCookieValue true name 0 s = .error e) (values : List CStr) :
    ¬ CookieCalls name s values := by
  intro hcalls
  cases hcalls with
  | done hcall => exact nomatch h.symm.trans hcall
  | found hcall _ => exact nomatch h.symm.trans hcall

theorem cookieCalls_skip {k : ℕ} (h : httpExtractCookieValue true name 0 s
      = httpExtractCookieValue true name k (s.drop k)) (values : List CStr) :
    CookieCalls name s values ↔ CookieCalls name (s.drop k) values := by
  rw [httpExtractCookieValue_off true name k] at h
  rcases hrest : httpExtractCookieValue true name 0 (s.drop k) with e | - | ⟨value, len, next⟩
  · rw [hrest] at h
    exact iff_of_false (not_cookieCalls_of_error h values) (not_cookieCalls_of_error hrest values)
  · rw [hrest] at h
    exact (cookieCalls_iff_of_none h values).trans (cookieCalls_iff_of_none hrest values).symm
  · rw [hrest] at h
    rw [cookieCalls_iff_of_some h, cookieCalls_iff_of_some hrest, List.drop_drop, List.drop_drop]

/-! ### All values -/

theorem cookieCalls_of_short (hshort : s.length ≤ name.length + 1) :
    CookieCalls name s (namedCookieValues name s) ↔
      ¬ IsBareItem name (lastItem s) ∧ ¬ IsBlankItem name (lastItem s) := by
  have hcall : httpExtractCookieValue true name 0 s = .ok none := by
    rw [httpExtractCookieValue, dif_pos hshort]
  have hle : (lastItem s).length ≤ s.length := by
    rcases length_item s _ (lastItem_mem s) with ⟨heq, -⟩ | hlt
    · rw [heq]
    · exact hlt.le
  have hblank : ¬ IsBlankItem name (lastItem s) := fun hb => by
    have := hb.1
    omega
  rw [cookieCalls_iff_of_none hcall, and_iff_left hblank]
  constructor
  · rintro hnil ⟨-, hvalue⟩
    rw [namedCookieValues, List.filterMap_eq_nil_iff] at hnil
    exact hvalue (hnil _ (lastItem_mem s))
  · intro hbare
    rw [namedCookieValues, List.filterMap_eq_nil_iff]
    intro item hitem
    by_contra hvalue
    obtain ⟨hlen, heq⟩ := length_of_cookieValue hvalue
    rcases length_item s item hitem with ⟨rfl, hone⟩ | hlt
    · apply hbare
      have hlast : lastItem item = item := by
        rw [lastItem, hone]
        rfl
      rw [hlast]
      exact ⟨heq (by omega), hvalue⟩
    · omega

theorem lastItem_rest {c : UInt8} (hlong : ¬ s.length ≤ name.length + 1) (hc : c ∈ s)
    (hspht : httpIsSpht c = false) :
    (¬ IsBareItem name (lastItem s) ∧ ¬ IsBlankItem name (lastItem s)) ↔
      ¬ IsBareItem name (lastItem (s.drop (itemEnd .name s + 1))) ∧
        ¬ IsBlankItem name (lastItem (s.drop (itemEnd .name s + 1))) := by
  have hbare {x : CStr} (hx : x.length ≠ name.length + 1) : ¬ IsBareItem name x := by
    rintro ⟨rfl, -⟩
    exact hx List.length_append
  rw [lastItem_eq s]
  by_cases hlt : itemEnd .name s < s.length
  · rw [if_pos hlt]
  · -- it is the only item, and the rest is empty
    rw [if_neg hlt, List.drop_eq_nil_of_le (by omega)]
    refine iff_of_true ⟨hbare (by omega), fun hblank => ?_⟩
      ⟨hbare (Nat.succ_ne_zero _).symm, fun hblank => absurd hblank.1 (Nat.not_succ_le_zero _)⟩
    rw [hblank.2 c hc] at hspht
    exact Bool.noConfusion hspht

theorem CookieParts.dollar_iff {w n r : CStr} {c : UInt8} (h : CookieParts s w n r)
    (hhead : (n ++ r).head? = some c) (hr : r.head? = some 61) :
    (trimEnd n).head? = some 36 ↔ c = 36 := by
  have hnfirst : ∀ d, n.head? = some d → httpIsSpht d = false := by
    intro d hd
    apply h.first d
    rw [List.head?_append, hd]
    rfl
  rw [head?_trimEnd hnfirst]
  rcases n with - | ⟨d, n⟩
  · rw [List.nil_append, hr] at hhead
    obtain rfl := Option.some.inj hhead
    exact iff_of_false (fun h => nomatch h) (by decide)
  · obtain rfl := Option.some.inj hhead
    exact Option.some_inj

/-- **The calls find all values** of the cookies with a name, and read no byte behind the header
value, if and only if the last item is neither the bare name nor blanks only. -/
theorem cookie_values_iff (name s : CStr) :
    CookieCalls name s (namedCookieValues name s) ↔
      ¬ IsBareItem name (lastItem s) ∧ ¬ IsBlankItem name (lastItem s) := by
  induction hn : s.length using Nat.strong_induction_on generalizing s with
  | _ n ih =>
    subst hn
    by_cases hshort : s.length ≤ name.length + 1
    · exact cookieCalls_of_short hshort
    -- one turn of the loop
    obtain ⟨w, n, r, hparts⟩ := exists_cookieParts s
    have hcall := httpExtractCookieValue.eq_def true name 0 s
    rw [dif_neg hshort] at hcall
    dsimp only at hcall
    have hfirst : s[(cookieTurn true s).attBeg]? = (n ++ r).head? := by
      rw [hparts.attBeg_eq.1, ← List.head?_drop, hparts.attBeg_eq.2.2]
    rw [hfirst] at hcall
    rcases hhead : (n ++ r).head? with - | c
    · -- only blanks are left
      rw [hhead] at hcall
      refine iff_of_false (not_cookieCalls_of_error hcall _) fun hfine => hfine.2 ?_
      have hs : s = w := by
        rw [hparts.eq, List.head?_eq_none_iff.mp hhead, List.append_nil]
      have hend : itemEnd .name s = s.length := by
        have hw : itemEnd .name (w ++ []) = w.length + itemEnd .name [] :=
          itemEnd_blanks (.inl rfl) hparts.blanks []
        rw [List.append_nil, ← hs] at hw
        exact hw
      have hlast : lastItem s = s := by rw [lastItem_eq, if_neg (by omega)]
      rw [hlast]
      exact ⟨by omega, hs ▸ hparts.blanks⟩
    rw [hhead] at hcall
    dsimp only at hcall
    have hmem : c ∈ s := by
      rw [hparts.eq]
      exact List.mem_append_right _ (List.mem_of_head? hhead)
    have hih := ih (s.drop (itemEnd .name s + 1)).length (by rw [List.length_drop]; omega) _ rfl
    rw [lastItem_rest hshort hmem (hparts.first c hhead), ← hih, namedCookieValues_eq]
    -- an item that is skipped
    have hskip (hnone : cookieValue name (s.take (itemEnd .name s)) = none)
        (hnext : (cookieTurn true s).next = itemEnd .name s)
        (hsame : httpExtractCookieValue true name 0 s = httpExtractCookieValue true name
          (0 + (cookieTurn true s).next + 1) (s.drop ((cookieTurn true s).next + 1))) :
        CookieCalls name s ((cookieValue name (s.take (itemEnd .name s))).toList ++
            namedCookieValues name (s.drop (itemEnd .name s + 1))) ↔
          CookieCalls name (s.drop (itemEnd .name s + 1))
            (namedCookieValues name (s.drop (itemEnd .name s + 1))) := by
      rw [hnext, Nat.zero_add] at hsame
      rw [hnone]
      exact cookieCalls_skip hsame _
    by_cases heq : r.head? = some 61
    · have hdollar := hparts.dollar_iff hhead heq
      obtain ⟨v, rfl⟩ : ∃ v, r = 61 :: v := by
        rcases r with - | ⟨d, v⟩
        · exact nomatch heq
        · exact ⟨v, by rw [Option.some.inj heq]⟩
      obtain ⟨hne, hnext, hpair, hname⟩ := hparts.turn_of_eq
      rw [if_neg hne, hname] at hcall
      have hvalue : cookieValue name (s.take (itemEnd .name s)) =
          if c ≠ 36 ∧ (name = [] ∨ trimEnd n = name) then
            some ((s.drop (cookieTurn true s).valBeg).take
              ((cookieTurn true s).valEnd - (cookieTurn true s).valBeg))
          else none := by
        rw [cookieValue, hpair]
        dsimp only
        refine if_congr ?_ rfl rfl
        rw [Ne, hdollar]
      by_cases h36 : c = 36
      · rw [if_pos h36] at hcall
        exact hskip (by rw [hvalue, if_neg fun h => h.1 h36]) hnext hcall
      rw [if_neg h36] at hcall
      by_cases hmatch : name = [] ∨ trimEnd n = name
      · -- a value is found
        rw [if_pos hmatch] at hcall
        rw [hvalue, if_pos ⟨h36, hmatch⟩, cookieCalls_iff_of_some hcall, hnext, Nat.zero_add,
          Nat.zero_add]
        constructor
        · rintro ⟨rest, hcons, hcalls⟩
          have hsame : namedCookieValues name (s.drop (itemEnd .name s + 1)) = rest :=
            (List.cons.inj hcons).2
          rw [hsame]
          exact hcalls
        · exact fun hcalls => ⟨_, rfl, hcalls⟩
      · rw [if_neg hmatch, if_pos rfl] at hcall
        exact hskip (by rw [hvalue, if_neg fun h => hmatch h.2]) hnext hcall
    · -- no equal sign
      obtain ⟨hsame, hnext, hpair⟩ := hparts.turn_of_ne heq
      refine hskip (by rw [cookieValue, hpair]) hnext ?_
      rw [hcall, if_pos hsame]
      split_ifs <;> rfl

/-- The cookie `a=` without a value is not found, and behind three blanks a byte is read. -/
theorem not_cookie_values :
    ¬ (∀ name s, CookieCalls name s (namedCookieValues name s)) ∧
      httpExtractCookieValue true [97] 0 [32, 32, 32] = .error .outOfBounds := by
  constructor
  · intro h
    have hcall : httpExtractCookieValue true [97] 0 [97, 61] = .ok none := by
      rw [httpExtractCookieValue, dif_pos (by decide)]
    have hvalues := (cookieCalls_iff_of_none hcall _).mp (h [97] [97, 61])
    exact absurd hvalues (by decide)
  · rw [httpExtractCookieValue, dif_neg (by decide)]
    rfl

end SmartHAProxy
