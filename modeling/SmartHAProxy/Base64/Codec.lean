/-
Base64 as of RFC 1421, and its URL variant (src/base64.c).

Three bytes become four characters; one or two bytes at the end become two or three,
which the standard variant fills up with equal signs.  The decoders find the value of a
character in a table that starts at the least character and holds the values with an
offset, with `#` for the characters without a value.

The sizes are `int`s, and the lengths are below 2^30, so that none of them overflows.
What a call that fails has written to the output is left out.
-/
import SmartHAProxy.Lib.Memory
import Mathlib.Data.Nat.Bitwise

namespace SmartHAProxy

variable {c n b : UInt8}

/-! ### The tables -/

def base64tab : CStr := bytes "ABCDEFGHIJKLMNOPQRSTUVWXYZabcdefghijklmnopqrstuvwxyz0123456789+/"

def base64rev : CStr :=
  bytes "b###cXYZ[\\]^_`a###d###$%&'()*+,-./0123456789:;<=######>?@ABCDEFGHIJKLMNOPQRSTUVW"

def ubase64tab : CStr := bytes "ABCDEFGHIJKLMNOPQRSTUVWXYZabcdefghijklmnopqrstuvwxyz0123456789-_"

def ubase64rev : CStr :=
  bytes "b##XYZ[\\]^_`a###c###$%&'()*+,-./0123456789:;<=####c#>?@ABCDEFGHIJKLMNOPQRSTUVW"

theorem bytes_ofList (l : List Char) :
    bytes (String.ofList l) = l.map fun c => UInt8.ofNat c.toNat := by
  rw [bytes, String.toList_ofList]

/-- The codes of `base64tab`. -/
def base64tabCodes : List ℕ :=
  [65, 66, 67, 68, 69, 70, 71, 72, 73, 74, 75, 76, 77, 78, 79, 80, 81, 82, 83, 84, 85, 86, 87,
    88, 89, 90, 97, 98, 99, 100, 101, 102, 103, 104, 105, 106, 107, 108, 109, 110, 111, 112,
    113, 114, 115, 116, 117, 118, 119, 120, 121, 122, 48, 49, 50, 51, 52, 53, 54, 55, 56, 57,
    43, 47]

theorem base64tab_eq : base64tab = base64tabCodes.map UInt8.ofNat :=
  (bytes_ofList _).trans rfl

/-- The codes of `base64rev`. -/
def base64revCodes : List ℕ :=
  [98, 35, 35, 35, 99, 88, 89, 90, 91, 92, 93, 94, 95, 96, 97, 35, 35, 35, 100, 35, 35, 35, 36,
    37, 38, 39, 40, 41, 42, 43, 44, 45, 46, 47, 48, 49, 50, 51, 52, 53, 54, 55, 56, 57, 58, 59,
    60, 61, 35, 35, 35, 35, 35, 35, 62, 63, 64, 65, 66, 67, 68, 69, 70, 71, 72, 73, 74, 75, 76,
    77, 78, 79, 80, 81, 82, 83, 84, 85, 86, 87]

theorem base64rev_eq : base64rev = base64revCodes.map UInt8.ofNat :=
  (bytes_ofList _).trans rfl

/-- The codes of `ubase64tab`. -/
def ubase64tabCodes : List ℕ :=
  [65, 66, 67, 68, 69, 70, 71, 72, 73, 74, 75, 76, 77, 78, 79, 80, 81, 82, 83, 84, 85, 86, 87,
    88, 89, 90, 97, 98, 99, 100, 101, 102, 103, 104, 105, 106, 107, 108, 109, 110, 111, 112,
    113, 114, 115, 116, 117, 118, 119, 120, 121, 122, 48, 49, 50, 51, 52, 53, 54, 55, 56, 57,
    45, 95]

theorem ubase64tab_eq : ubase64tab = ubase64tabCodes.map UInt8.ofNat :=
  (bytes_ofList _).trans rfl

/-- The codes of `ubase64rev`. -/
def ubase64revCodes : List ℕ :=
  [98, 35, 35, 88, 89, 90, 91, 92, 93, 94, 95, 96, 97, 35, 35, 35, 99, 35, 35, 35, 36, 37, 38,
    39, 40, 41, 42, 43, 44, 45, 46, 47, 48, 49, 50, 51, 52, 53, 54, 55, 56, 57, 58, 59, 60, 61,
    35, 35, 35, 35, 99, 35, 62, 63, 64, 65, 66, 67, 68, 69, 70, 71, 72, 73, 74, 75, 76, 77, 78,
    79, 80, 81, 82, 83, 84, 85, 86, 87]

theorem ubase64rev_eq : ubase64rev = ubase64revCodes.map UInt8.ofNat :=
  (bytes_ofList _).trans rfl

/-! ### Tables that are inverse to each other -/

/-- The tables `tab` and `rev`, which starts at the character `cmin`, are inverse to each other;
besides, the equal sign has the value `equal`. -/
structure Inverts (tab rev : List ℕ) (cmin equal : ℕ) : Prop where
  length : tab.length = 64
  rev_tab : ∀ p ∈ tab.zipIdx, cmin ≤ p.1 ∧ p.1 ≤ 122 ∧ p.1 ≠ 61 ∧ rev.getD (p.1 - cmin) 0 = p.2 + 36
  tab_rev : ∀ p ∈ rev.zipIdx, p.1 ≤ 35 ∨ (p.2 + cmin = 61 ∧ p.1 = equal + 36) ∨
    (p.1 < 100 ∧ tab.getD (p.1 - 36) 0 = p.2 + cmin)
  rev_lt : ∀ r ∈ rev, r < 256
  length_rev : rev.length = 123 - cmin

theorem inverts_std : Inverts base64tabCodes base64revCodes 43 64 :=
  ⟨by decide, by decide, by decide, by decide, by decide⟩

theorem inverts_url : Inverts ubase64tabCodes ubase64revCodes 45 63 :=
  ⟨by decide, by decide, by decide, by decide, by decide⟩

/-! ### Encoding -/

/-- The character of the value `n` in the table `tab`. -/
def tabChar (tab : CStr) (n : UInt8) : UInt8 := tab.getD n.toNat 0

/-- The characters for `input` in the table `tab`, with `fill` set for the equal signs at the
end. -/
def encodeChars (tab : CStr) (fill : Bool) : CStr → CStr
  | a :: b :: c :: rest =>
    [tabChar tab (a >>> 2), tabChar tab ((a &&& 3) <<< 4 ||| b >>> 4),
      tabChar tab ((b &&& 15) <<< 2 ||| c >>> 6), tabChar tab (c &&& 63)]
      ++ encodeChars tab fill rest
  | [a, b] =>
    [tabChar tab (a >>> 2), tabChar tab ((a &&& 3) <<< 4 ||| b >>> 4),
      tabChar tab ((b &&& 15) <<< 2)] ++ if fill then [61] else []
  | [a] =>
    [tabChar tab (a >>> 2), tabChar tab ((a &&& 3) <<< 4)] ++ if fill then [61, 61] else []
  | [] => []

/-- What `convlen` is less by in `a2base64url`, for `n` bytes: two for one byte in the last group,
and one for two bytes. -/
def padOf (n : ℕ) : ℕ := if n % 3 = 0 then 0 else 3 - n % 3

/-- Encode `input` into `out`, with a zero byte at the end: the return value and the output, or
`none` for -1. -/
def encodeTo (tab : CStr) (fill : Bool) (input out : CStr) :
    Except Fault (Option (ℕ × CStr)) :=
  let convlen := (input.length + 2) / 3 * 4
  if out.length ≤ convlen then .ok none
  else do
    let out ← memWrite out 0 (encodeChars tab fill input ++ [0])
    return some (if fill then convlen else convlen - padOf input.length, out)

def a2base64 (input out : CStr) : Except Fault (Option (ℕ × CStr)) :=
  encodeTo base64tab true input out

def a2base64url (input out : CStr) : Except Fault (Option (ℕ × CStr)) :=
  encodeTo ubase64tab false input out

/-! ### Decoding -/

def b64padv : UInt8 := 64

/-- The value of a character in the table `rev` that starts at `cmin`: 122 is `B64CMAX`, and 35
is `B64BASE`. -/
def charValue (rev : CStr) (cmin c : UInt8) : Option UInt8 :=
  let b := c - cmin
  if b > 122 - cmin then none
  else
    let r := rev.getD b.toNat 35
    if r ≤ 35 then none else some (r - 35 - 1)

/-- The value of a character of the standard alphabet, with 43 as `B64CMIN`. -/
def stdValue (c : UInt8) : Option UInt8 := charValue base64rev 43 c

/-- The value of a character of the URL alphabet, with 45 as `UB64CMIN`. -/
def urlValue (c : UInt8) : Option UInt8 := charValue ubase64rev 45 c

/-- What a decoder has: the values `t[0..i)` of the characters of a group of four, the number of
bytes decoded, the equal signs of the group, and the output. -/
structure DecState where
  t : List UInt8
  convlen : ℕ
  pad : ℕ
  out : CStr

/-- The three bytes of a group of four values.  A `set` past the end of the output has no effect:
these are the checks of `convlen` against `olen`. -/
def putGroup (out : CStr) (convlen : ℕ) (t0 t1 t2 t3 : UInt8) : CStr :=
  ((out.set convlen ((t0 <<< 2) + (t1 >>> 4))).set (convlen + 1) ((t1 <<< 4) + (t2 >>> 2))).set
    (convlen + 2) ((t2 <<< 6) + t3)

/-- `t[i++] = b` with `pad` equal signs in the group so far, and the bytes of a complete group, of
which the last `pad` do not count. -/
def DecState.put (st : DecState) (b : UInt8) (pad : ℕ) : DecState :=
  match st.t with
  | [t0, t1, t2] => ⟨[], st.convlen + (3 - pad), 0, putGroup st.out st.convlen t0 t1 t2 b⟩
  | t => ⟨t ++ [b], st.convlen, pad, st.out⟩

/-- One turn of the loop of `base64dec`. -/
def base64decStep (st : DecState) (c : UInt8) : Option DecState :=
  (stdValue c).bind fun b =>
    -- padding has to be continuous
    if 0 < st.pad ∧ b ≠ b64padv then none
    -- valid padding: "XX==" or "XXX=", but never "X===" or "===="
    else if 0 < st.pad ∧ st.t.length < 2 then none
    else some (st.put b (if b = b64padv then st.pad + 1 else st.pad))

/-- `in[ilen-k]`. -/
def charBefore (input : CStr) (k : ℕ) : Except Fault UInt8 :=
  if k ≤ input.length then .ok (input.getD (input.length - k) 0) else .error .outOfBounds

def isPad (c : UInt8) : ℕ := if c = 61 then 1 else 0

/-- `base64dec`: the return value and the output, or a negative value. -/
def base64dec (input out : CStr) : Except Fault (Except ℤ (ℕ × CStr)) :=
  if input.length % 4 ≠ 0 then .ok (.error (-1))
  else do
    let last ← charBefore input 1
    let prev ← charBefore input 2
    if out.length < input.length / 4 * 3 - isPad last - isPad prev then return .error (-2)
    else
      match input.foldlM base64decStep ⟨[], 0, 0, out⟩ with
      | none => return .error (-1)
      | some st => return .ok (st.convlen, st.out)

/-- `padlen` of `base64urldec`, by the rest of the length. -/
def urlPadlen : ℕ → Option ℕ
  | 0 => some 0
  | 2 => some 2
  | 3 => some 1
  | _ => none

/-- One turn of the loop of `base64urldec` with a character of the input. -/
def base64urldecStep (st : DecState) (c : UInt8) : Option DecState :=
  (urlValue c).map fun b => st.put b 0

/-- The last turns of the loop of `base64urldec`. -/
def urlFill : ℕ → DecState → DecState
  | 0, st => st
  | pad + 1, st => urlFill pad (st.put b64padv 0)

/-- `base64urldec`: the return value and the output, or a negative value. -/
def base64urldec (input out : CStr) : Except ℤ (ℕ × CStr) :=
  match urlPadlen (input.length % 4) with
  | none => .error (-1)
  | some padlen =>
    if out.length < (input.length + padlen) / 4 * 3 - padlen then .error (-2)
    else
      match input.foldlM base64urldecStep ⟨[], 0, 0, out⟩ with
      | none => .error (-1)
      | some st =>
        let st := urlFill padlen st
        .ok (st.convlen - padlen, st.out)

/-! ### The values of the characters -/

section Inverts

variable {tab rev : List ℕ} {cmin equal : ℕ}

theorem getD_map_ofNat {l : List ℕ} {i : ℕ} (h : i < l.length) (d : UInt8) :
    (l.map UInt8.ofNat).getD i d = UInt8.ofNat (l.getD i 0) := by
  rw [List.getD_eq_getElem _ _ (by rwa [List.length_map]), List.getElem_map,
    List.getD_eq_getElem _ _ h]

theorem mem_zipIdx_getD {l : List ℕ} {i : ℕ} (h : i < l.length) : (l.getD i 0, i) ∈ l.zipIdx := by
  rw [List.getD_eq_getElem _ _ h, List.mk_mem_zipIdx_iff_getElem?]
  exact List.getElem?_eq_getElem h

theorem toNat_ofNat_lt {n : ℕ} (h : n < 256) : (UInt8.ofNat n).toNat = n := by
  rw [UInt8.toNat_ofNat']
  exact Nat.mod_eq_of_lt h

/-- The value of a character by its code. -/
theorem Inverts.charValue_eq (h : Inverts tab rev cmin equal) (hmin : cmin ≤ c.toNat)
    (hmax : c.toNat ≤ 122) :
    charValue (rev.map UInt8.ofNat) (UInt8.ofNat cmin) c
      = if rev.getD (c.toNat - cmin) 0 ≤ 35 then none
        else some (UInt8.ofNat (rev.getD (c.toNat - cmin) 0 - 36)) := by
  have hcmin : (UInt8.ofNat cmin).toNat = cmin := toNat_ofNat_lt (by omega)
  have hsub : (c - UInt8.ofNat cmin).toNat = c.toNat - cmin := by
    rw [UInt8.toNat_sub_of_le _ _ (UInt8.le_iff_toNat_le.mpr (by omega)), hcmin]
  have hsize : (122 - UInt8.ofNat cmin).toNat = 122 - cmin := by
    have hle : UInt8.ofNat cmin ≤ 122 := UInt8.le_iff_toNat_le.mpr (show _ ≤ 122 by omega)
    rw [UInt8.toNat_sub_of_le _ _ hle, hcmin]
    rfl
  have hin : ¬ c - UInt8.ofNat cmin > 122 - UInt8.ofNat cmin := by
    rw [gt_iff_lt, UInt8.lt_iff_toNat_lt, hsub, hsize]
    omega
  have hidx : c.toNat - cmin < rev.length := by
    rw [h.length_rev]
    omega
  have hr := h.rev_lt (rev.getD (c.toNat - cmin) 0) (by
    rw [List.getD_eq_getElem _ _ hidx]
    exact List.getElem_mem hidx)
  rw [charValue, if_neg hin, hsub, getD_map_ofNat hidx]
  generalize rev.getD (c.toNat - cmin) 0 = r at *
  have h35 : UInt8.ofNat r ≤ 35 ↔ r ≤ 35 := by
    rw [UInt8.le_iff_toNat_le, toNat_ofNat_lt hr]
    rfl
  by_cases hle : r ≤ 35
  · rw [if_pos hle, if_pos (h35.mpr hle)]
  · rw [if_neg hle]
    refine (if_neg (mt h35.mp hle)).trans (congrArg some (UInt8.toNat_inj.mp ?_))
    have hge : (35 : UInt8) ≤ UInt8.ofNat r := by
      rw [UInt8.le_iff_toNat_le, toNat_ofNat_lt hr]
      exact (show 35 ≤ r by omega)
    have hsub1 : (UInt8.ofNat r - 35).toNat = r - 35 := by
      rw [UInt8.toNat_sub_of_le _ _ hge, toNat_ofNat_lt hr]
      rfl
    rw [UInt8.toNat_sub_of_le, hsub1, toNat_ofNat_lt (by omega)]
    · exact (show r - 35 - 1 = r - 36 by omega)
    · rw [UInt8.le_iff_toNat_le, hsub1]
      exact (show 1 ≤ r - 35 by omega)

theorem charValue_eq_none (hcmin : cmin ≤ 122) (h : c.toNat < cmin ∨ 122 < c.toNat) :
    charValue (rev.map UInt8.ofNat) (UInt8.ofNat cmin) c = none := by
  have hmin : (UInt8.ofNat cmin).toNat = cmin := toNat_ofNat_lt (by omega)
  have hsize : (122 - UInt8.ofNat cmin).toNat = 122 - cmin := by
    have hle : UInt8.ofNat cmin ≤ 122 := UInt8.le_iff_toNat_le.mpr (show _ ≤ 122 by omega)
    rw [UInt8.toNat_sub_of_le _ _ hle, hmin]
    rfl
  have hlt := c.toNat_lt
  refine if_pos ?_
  rw [gt_iff_lt, UInt8.lt_iff_toNat_lt, hsize, UInt8.toNat_sub, hmin]
  omega

theorem Inverts.charValue_tabChar (h : Inverts tab rev cmin equal) (hn : n < 64) :
    charValue (rev.map UInt8.ofNat) (UInt8.ofNat cmin) (tabChar (tab.map UInt8.ofNat) n)
      = some n := by
  have hi : n.toNat < tab.length := by
    rw [h.length]
    exact hn
  obtain ⟨hmin, hmax, -, hrev⟩ := h.rev_tab _ (mem_zipIdx_getD hi)
  have hcode : (tabChar (tab.map UInt8.ofNat) n).toNat = tab.getD n.toNat 0 := by
    rw [tabChar, getD_map_ofNat hi, toNat_ofNat_lt (by omega)]
  rw [h.charValue_eq (by omega) (by omega), hcode, hrev, if_neg (by omega), Nat.add_sub_cancel,
    UInt8.ofNat_toNat]

theorem Inverts.charValue_cases (h : Inverts tab rev cmin equal) (hcmin : cmin ≤ 122)
    (hb : charValue (rev.map UInt8.ofNat) (UInt8.ofNat cmin) c = some b) :
    b < 64 ∧ c = tabChar (tab.map UInt8.ofNat) b ∨ b = UInt8.ofNat equal ∧ c = 61 := by
  by_cases hout : c.toNat < cmin ∨ 122 < c.toNat
  · rw [charValue_eq_none hcmin hout] at hb
    cases hb
  rw [h.charValue_eq (by omega) (by omega)] at hb
  have hidx : c.toNat - cmin < rev.length := by
    rw [h.length_rev]
    omega
  have hpair := h.tab_rev _ (mem_zipIdx_getD hidx)
  dsimp only at hpair
  split_ifs at hb with hle
  obtain rfl := Option.some.inj hb
  rcases hpair with hle' | ⟨hc, hr⟩ | ⟨hlt, htab⟩
  · exact absurd hle' hle
  · right
    rw [hr, Nat.add_sub_cancel]
    exact ⟨rfl, UInt8.toNat_inj.mp (show c.toNat = 61 by omega)⟩
  · left
    have hto := toNat_ofNat_lt (n := rev.getD (c.toNat - cmin) 0 - 36) (by omega)
    refine ⟨?_, UInt8.toNat_inj.mp ?_⟩
    · rw [UInt8.lt_iff_toNat_lt, hto]
      exact (show _ < 64 by omega)
    · have hi : rev.getD (c.toNat - cmin) 0 - 36 < tab.length := by
        rw [h.length]
        omega
      rw [tabChar, hto, getD_map_ofNat hi, htab, toNat_ofNat_lt (by omega)]
      omega

end Inverts

theorem stdValue_tabChar (h : n < 64) : stdValue (tabChar base64tab n) = some n := by
  rw [stdValue, base64rev_eq, base64tab_eq]
  exact inverts_std.charValue_tabChar h

theorem urlValue_tabChar (h : n < 64) : urlValue (tabChar ubase64tab n) = some n := by
  rw [urlValue, ubase64rev_eq, ubase64tab_eq]
  exact inverts_url.charValue_tabChar h

theorem stdValue_cases (h : stdValue c = some b) :
    b < 64 ∧ c = tabChar base64tab b ∨ b = b64padv ∧ c = 61 := by
  rw [stdValue, base64rev_eq] at h
  rw [base64tab_eq]
  exact inverts_std.charValue_cases (by decide) h

theorem urlValue_cases (h : urlValue c = some b) :
    b < 64 ∧ (c = tabChar ubase64tab b ∨ c = 61) := by
  rw [urlValue, ubase64rev_eq] at h
  rw [ubase64tab_eq]
  rcases inverts_url.charValue_cases (by decide) h with ⟨hlt, hc⟩ | ⟨rfl, hc⟩
  · exact ⟨hlt, .inl hc⟩
  · exact ⟨by decide, .inr hc⟩

theorem stdValue_equal : stdValue 61 = some b64padv := by
  rw [stdValue, base64rev_eq]
  rfl

theorem urlValue_equal : urlValue 61 = some 63 := by
  rw [urlValue, ubase64rev_eq]
  rfl

theorem Inverts.equal_not_mem {tab rev : List ℕ} {cmin equal : ℕ} (h : Inverts tab rev cmin equal) :
    (61 : UInt8) ∉ tab.map UInt8.ofNat := by
  intro hmem
  obtain ⟨code, hcode, heq⟩ := List.mem_map.mp hmem
  obtain ⟨i, hi, rfl⟩ := List.getElem_of_mem hcode
  obtain ⟨-, hmax, hne, -⟩ := h.rev_tab (tab.getD i 0, i) (mem_zipIdx_getD hi)
  rw [List.getD_eq_getElem _ _ hi] at hmax hne
  have hto := congrArg UInt8.toNat heq
  rw [toNat_ofNat_lt (by omega)] at hto
  exact hne hto

theorem equal_not_mem_base64tab : (61 : UInt8) ∉ base64tab := by
  rw [base64tab_eq]
  exact inverts_std.equal_not_mem

theorem equal_not_mem_ubase64tab : (61 : UInt8) ∉ ubase64tab := by
  rw [ubase64tab_eq]
  exact inverts_url.equal_not_mem

theorem length_base64tab : base64tab.length = 64 := by
  rw [base64tab_eq, List.length_map]
  exact inverts_std.length

theorem length_ubase64tab : ubase64tab.length = 64 := by
  rw [ubase64tab_eq, List.length_map]
  exact inverts_url.length

theorem tabChar_mem {tab : CStr} (h : b.toNat < tab.length) : tabChar tab b ∈ tab := by
  rw [tabChar, List.getD_eq_getElem _ _ h]
  exact List.getElem_mem h

theorem exists_tabChar {tab : CStr} (htab : tab.length = 64) (h : c ∈ tab) :
    ∃ n < 64, c = tabChar tab n := by
  obtain ⟨i, hi, rfl⟩ := List.getElem_of_mem h
  have hn : (UInt8.ofNat i).toNat = i := by
    rw [UInt8.toNat_ofNat']
    omega
  refine ⟨UInt8.ofNat i, ?_, ?_⟩
  · show (UInt8.ofNat i).toNat < 64
    omega
  · rw [tabChar, hn, List.getD_eq_getElem _ _ hi]

/-! ### The bytes of a group -/

theorem length_putGroup (out : CStr) (convlen : ℕ) (t0 t1 t2 t3 : UInt8) :
    (putGroup out convlen t0 t1 t2 t3).length = out.length := by
  rw [putGroup, List.length_set, List.length_set, List.length_set]

theorem take_putGroup {out : CStr} {convlen n : ℕ} (hn : n ≤ 3) (h : convlen + n ≤ out.length)
    (t0 t1 t2 t3 : UInt8) :
    (putGroup out convlen t0 t1 t2 t3).take (convlen + n) = out.take convlen
      ++ [(t0 <<< 2) + (t1 >>> 4), (t1 <<< 4) + (t2 >>> 2), (t2 <<< 6) + t3].take n := by
  refine List.ext_getElem? fun i => ?_
  rw [List.getElem?_append, List.length_take, Nat.min_eq_left (by omega), List.getElem?_take,
    List.getElem?_take, List.getElem?_take, putGroup]
  by_cases hi : i < convlen
  · rw [if_pos hi, if_pos hi, if_pos (by omega), List.getElem?_set_ne (by omega),
      List.getElem?_set_ne (by omega), List.getElem?_set_ne (by omega)]
  · obtain ⟨j, rfl⟩ : ∃ j, i = convlen + j := ⟨i - convlen, by omega⟩
    rw [if_neg hi, Nat.add_sub_cancel_left]
    by_cases hj : j < n
    · rw [if_pos hj, if_pos (by omega)]
      have hlen : convlen + j < out.length := by omega
      obtain rfl | rfl | rfl : j = 0 ∨ j = 1 ∨ j = 2 := by omega
      · rw [List.getElem?_set_ne (by omega), List.getElem?_set_ne (by omega)]
        exact List.getElem?_set_self hlen
      · rw [List.getElem?_set_ne (by omega)]
        exact List.getElem?_set_self (by rwa [List.length_set])
      · exact List.getElem?_set_self (by rwa [List.length_set, List.length_set])
    · rw [if_neg hj, if_neg (by omega)]

theorem UInt8.toNat_shr (a : UInt8) {k : UInt8} (hk : k.toNat < 8) :
    (a >>> k).toNat = a.toNat / 2 ^ k.toNat := by
  rw [UInt8.toNat_shiftRight, Nat.mod_eq_of_lt hk, Nat.shiftRight_eq_div_pow]

theorem UInt8.toNat_shl (a : UInt8) {k : UInt8} (hk : k.toNat < 8) :
    (a <<< k).toNat = a.toNat * 2 ^ k.toNat % 256 := by
  rw [UInt8.toNat_shiftLeft, Nat.mod_eq_of_lt hk, Nat.shiftLeft_eq]

theorem toNat_sextet0 (a : UInt8) : (a >>> 2).toNat = a.toNat / 4 := UInt8.toNat_shr a (by decide)

theorem toNat_sextet1 (a b : UInt8) :
    ((a &&& 3) <<< 4 ||| b >>> 4).toNat = a.toNat % 4 * 16 + b.toNat / 16 := by
  have hand : (a &&& 3).toNat = a.toNat % 4 := by
    rw [UInt8.toNat_and]
    exact Nat.and_two_pow_sub_one_eq_mod _ 2
  have ha : ((a &&& 3) <<< 4).toNat = (a.toNat % 4) <<< 4 := by
    rw [UInt8.toNat_shl _ (by decide), hand, Nat.shiftLeft_eq]
    exact Nat.mod_eq_of_lt (show a.toNat % 4 * 16 < 256 by omega)
  have hb : (b >>> 4).toNat = b.toNat / 16 := UInt8.toNat_shr b (by decide)
  have hlt : b.toNat / 16 < 2 ^ 4 := Nat.div_lt_of_lt_mul b.toNat_lt
  rw [UInt8.toNat_or, ha, hb, ← Nat.shiftLeft_add_eq_or_of_lt hlt, Nat.shiftLeft_eq]

theorem toNat_sextet2 (b c : UInt8) :
    ((b &&& 15) <<< 2 ||| c >>> 6).toNat = b.toNat % 16 * 4 + c.toNat / 64 := by
  have hand : (b &&& 15).toNat = b.toNat % 16 := by
    rw [UInt8.toNat_and]
    exact Nat.and_two_pow_sub_one_eq_mod _ 4
  have hb : ((b &&& 15) <<< 2).toNat = (b.toNat % 16) <<< 2 := by
    rw [UInt8.toNat_shl _ (by decide), hand, Nat.shiftLeft_eq]
    exact Nat.mod_eq_of_lt (show b.toNat % 16 * 4 < 256 by omega)
  have hc : (c >>> 6).toNat = c.toNat / 64 := UInt8.toNat_shr c (by decide)
  have hlt : c.toNat / 64 < 2 ^ 2 := Nat.div_lt_of_lt_mul c.toNat_lt
  rw [UInt8.toNat_or, hb, hc, ← Nat.shiftLeft_add_eq_or_of_lt hlt, Nat.shiftLeft_eq]

theorem toNat_sextet3 (c : UInt8) : (c &&& 63).toNat = c.toNat % 64 := by
  rw [UInt8.toNat_and]
  exact Nat.and_two_pow_sub_one_eq_mod _ 6

theorem byte0_eq {t0 t1 a : UInt8} (h0 : t0.toNat = a.toNat / 4)
    (h1 : t1.toNat / 16 = a.toNat % 4) : (t0 <<< 2) + (t1 >>> 4) = a := by
  have hl : (t0 <<< 2).toNat = t0.toNat * 4 % 256 := UInt8.toNat_shl t0 (by decide)
  have hr : (t1 >>> 4).toNat = t1.toNat / 16 := UInt8.toNat_shr t1 (by decide)
  have hlt := a.toNat_lt
  rw [← UInt8.toNat_inj, UInt8.toNat_add, hl, hr, h0, h1]
  omega

theorem byte1_eq {t1 t2 : UInt8} (h1 : t1.toNat % 16 = b.toNat / 16)
    (h2 : t2.toNat / 4 = b.toNat % 16) : (t1 <<< 4) + (t2 >>> 2) = b := by
  have hl : (t1 <<< 4).toNat = t1.toNat * 16 % 256 := UInt8.toNat_shl t1 (by decide)
  have hr : (t2 >>> 2).toNat = t2.toNat / 4 := UInt8.toNat_shr t2 (by decide)
  have hlt := b.toNat_lt
  rw [← UInt8.toNat_inj, UInt8.toNat_add, hl, hr, h2]
  omega

theorem byte2_eq {t2 t3 : UInt8} (h2 : t2.toNat % 4 = c.toNat / 64) (h3 : t3.toNat = c.toNat % 64) :
    (t2 <<< 6) + t3 = c := by
  have hl : (t2 <<< 6).toNat = t2.toNat * 64 % 256 := UInt8.toNat_shl t2 (by decide)
  have hlt := c.toNat_lt
  rw [← UInt8.toNat_inj, UInt8.toNat_add, hl, h3]
  omega

end SmartHAProxy
